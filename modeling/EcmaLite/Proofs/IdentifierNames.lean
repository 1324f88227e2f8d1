import EcmaLite.Proofs.ScriptWords
import EcmaLite.Proofs.ScriptGives

/-!
# Names are words that are no keywords

The names a script uses are its identifier expressions, the names and parameters of its
functions, and the names its `var` declarations declare (`Program.names`); the property names
after `.` and the keys of object literals are not names. This module shows that every name of a
script that reads is a word and no keyword (`names_are_identifierNames`):

* the builder makes each name from a node of the parse tree whose rule is `identifier`: an
  identifier expression or a function's name directly, a parameter as a child of
  `formal_parameters` and a declared name as the first child of `variable_declaration`, which
  the grammar makes `identifier` nodes (`Build.expr_names`, `Build.stmt_names` and the lemmas
  for the lists they read);
* every node of a parse is settled (`parse_settled`), and a settled `identifier` node read a word
  that is no keyword (`identifier_node_word`).
-/

namespace EcmaLite

/-! ## The names of a syntax tree -/

mutual

/-- The names an expression uses: its identifier expressions, and the names, parameters and the
names in the bodies of the function literals inside. Property names after `.` and object keys
are no names. -/
def Expr.names : Expr → List Ident
  | .ident id => [id]
  | .lit .. | .this _ => []
  | .array _ es | .seq _ es => Expr.namesOfList es
  | .object _ ps => Property.namesOfList ps
  | .func f => f.names
  | .unary _ _ a | .update _ _ _ a | .dot _ a _ => a.names
  | .binary _ _ l r | .logical _ _ l r | .assign _ _ l r | .index _ l r => l.names ++ r.names
  | .cond _ t y n => t.names ++ y.names ++ n.names
  | .call _ c args | .new _ c args => c.names ++ Expr.namesOfList args

/-- The names the expressions use, in order. -/
def Expr.namesOfList : List Expr → List Ident
  | [] => []
  | e :: es => e.names ++ Expr.namesOfList es

/-- The names the values of an object literal use. -/
def Property.namesOfList : List Property → List Ident
  | [] => []
  | .mk _ _ v :: ps => v.names ++ Property.namesOfList ps

/-- A function's name, its parameters and the names its body uses. -/
def Func.names : Func → List Ident
  | .mk _ name params _ body => name.toList ++ params ++ Stmt.namesOfList body

/-- The names an expression that may be missing uses. -/
def Expr.namesOfOption : Option Expr → List Ident
  | some e => e.names
  | none => []

/-- The names declarators declare, and the names their initialisers use. -/
def Declarator.namesOfList : List Declarator → List Ident
  | [] => []
  | .mk _ id init :: ds => id :: (Expr.namesOfOption init ++ Declarator.namesOfList ds)

/-- The names the first clause of a `for` loop declares or uses. -/
def ForInit.namesOfOption : Option ForInit → List Ident
  | some (.vars _ ds) => Declarator.namesOfList ds
  | some (.expr e) => e.names
  | none => []

/-- The names a statement declares or uses. -/
def Stmt.names : Stmt → List Ident
  | .expr _ e => e.names
  | .block _ body => Stmt.namesOfList body
  | .empty _ | .breakLoop _ | .continueLoop _ => []
  | .vars _ ds => Declarator.namesOfList ds
  | .funcDecl f => f.names
  | .ifElse _ t yes no => t.names ++ yes.names ++ Stmt.namesOfOption no
  | .whileLoop _ t body => t.names ++ body.names
  | .forLoop _ init test update body =>
    ForInit.namesOfOption init ++ Expr.namesOfOption test ++ Expr.namesOfOption update ++
      body.names
  | .ret _ arg => Expr.namesOfOption arg

/-- The names statements declare or use, in order. -/
def Stmt.namesOfList : List Stmt → List Ident
  | [] => []
  | s :: ss => s.names ++ Stmt.namesOfList ss

/-- The names a statement that may be missing declares or uses. -/
def Stmt.namesOfOption : Option Stmt → List Ident
  | some s => s.names
  | none => []

end

/-- The names a script declares or uses. -/
def Program.names (prog : Program) : List Ident := Stmt.namesOfList prog.body

open Peg

variable {src : Source}

/-- A name read off a settled `identifier` node of a parse of `src`. -/
def Named (src : Source) (id : Ident) : Prop :=
  ∃ nd : Node Rule,
    nd.Settled scriptGrammar src.chars ∧ nd.rule = .identifier ∧ id = src.ident nd

/-- A settled node from which the builder makes only expressions and statements whose names are
read off `identifier` nodes. -/
def NamesFrom (src : Source) (n : Node Rule) : Prop :=
  n.Settled scriptGrammar src.chars ∧
    (∀ e, Build.expr src n = some e → ∀ id ∈ e.names, Named src id) ∧
    (∀ s, Build.stmt src n = some s → ∀ id ∈ s.names, Named src id)

/-! ## What the grammar makes of parameters and declarations -/

/-- What a settled node that is not atomic read is a reading of its rule's body at the top
level. -/
theorem Peg.Node.Settled.gives {nd : Node Rule} (h : nd.Settled scriptGrammar src.chars)
    (ha : (Rule.kind nd.rule).atomic = false) : Gives src (Rule.body nd.rule) nd.children := by
  obtain ⟨-, -, -, k, hb⟩ := h
  have hreads := reads_of_run (hb.run_eq (Nat.le_refl k) Attempts.empty)
  exact ⟨nd.start, nd.stop, by simpa [scriptGrammar, ha] using hreads⟩

/-- The children of a settled `formal_parameters` node are `identifier` nodes. -/
theorem formalParameters_children {nd : Node Rule} (h : nd.Settled scriptGrammar src.chars)
    (hr : nd.rule = .formalParameters) : ∀ c ∈ nd.children, c.rule = .identifier := by
  have hg := h.gives (by rw [hr]; rfl)
  rw [hr] at hg
  exact gives_opt_each (fun h => gives_commaList_each (fun h' => gives_rule_each rfl h') h) hg

/-- The first child of a settled `variable_declaration` node is an `identifier` node. -/
theorem variableDeclaration_children {nd : Node Rule} (h : nd.Settled scriptGrammar src.chars)
    (hr : nd.rule = .variableDeclaration) :
    ∃ n rest, nd.children = n :: rest ∧ n.rule = .identifier := by
  have hg := h.gives (by rw [hr]; rfl)
  rw [hr] at hg
  obtain ⟨xs, ys, hxy, hx, -⟩ := gives_andThen hg
  obtain ⟨n, rfl, hn⟩ := gives_rule_node rfl hx
  exact ⟨n, ys, hxy, hn⟩

/-! ## The builder makes names of identifier nodes

One lemma per function of the builder that reads a list of nodes, each by induction on the list,
with every node of the lists' trees settled and read by the builder as the statement says
(`Every (NamesFrom src)`); the node itself is `names_from`, which assembles them. -/

section Lists

variable {cs : List (Node Rule)}

theorem Build.exprs_names : ∀ {cs : List (Node Rule)} {es : List Expr},
    (∀ c ∈ cs, c.Every (NamesFrom src)) → Build.exprs src cs = some es →
      ∀ id ∈ Expr.namesOfList es, Named src id
  | [], es, _, h => by
    simp only [Build.exprs, Option.some.injEq] at h
    subst h
    simp [Expr.namesOfList]
  | c :: cs, es, hcs, h => by
    simp only [Build.exprs] at h
    obtain ⟨e, he, h⟩ := Option.bind_eq_some_iff.mp h
    obtain ⟨es', hes', h⟩ := Option.bind_eq_some_iff.mp h
    simp only [Option.some.injEq] at h
    subst h
    have hc := (hcs c (List.mem_cons_self ..)).head
    have hrest := Build.exprs_names (fun c' hc' => hcs c' (List.mem_cons_of_mem _ hc')) hes'
    intro id hid
    rcases List.mem_append.mp hid with hid | hid
    · exact hc.2.1 e he id hid
    · exact hrest id hid

theorem Build.binaryChain_names (start : Nat) : ∀ {cs : List (Node Rule)} {left e : Expr},
    (∀ c ∈ cs, c.Every (NamesFrom src)) → (∀ id ∈ left.names, Named src id) →
      Build.binaryChain src start left cs = some e → ∀ id ∈ e.names, Named src id
  | [], left, e, _, hl, h => by
    simp only [Build.binaryChain, Option.some.injEq] at h
    exact h ▸ hl
  | [_], _, _, _, _, h => by simp [Build.binaryChain] at h
  | op :: r :: rest, left, e, hcs, hl, h => by
    simp only [Build.binaryChain] at h
    obtain ⟨o, -, h⟩ := Option.bind_eq_some_iff.mp h
    obtain ⟨right, hright, h⟩ := Option.bind_eq_some_iff.mp h
    have hr := (hcs r (by simp)).head.2.1 right hright
    refine Build.binaryChain_names start (fun c hc => hcs c (by simp [hc])) ?_ h
    simp only [Expr.names, List.forall_mem_append]
    exact ⟨hl, hr⟩

theorem Build.binary_names (start : Nat) {e : Expr} (hcs : ∀ c ∈ cs, c.Every (NamesFrom src))
    (h : Build.binary src start cs = some e) : ∀ id ∈ e.names, Named src id := by
  cases cs with
  | nil => simp [Build.binary] at h
  | cons c rest =>
    simp only [Build.binary] at h
    obtain ⟨left, hleft, h⟩ := Option.bind_eq_some_iff.mp h
    exact Build.binaryChain_names start (fun c' hc' => hcs c' (List.mem_cons_of_mem _ hc'))
      ((hcs c (List.mem_cons_self ..)).head.2.1 left hleft) h

theorem Build.logicalChain_names (start : Nat) (op : LogicalOp) :
    ∀ {cs : List (Node Rule)} {left e : Expr}, (∀ c ∈ cs, c.Every (NamesFrom src)) →
      (∀ id ∈ left.names, Named src id) → Build.logicalChain src start op left cs = some e →
        ∀ id ∈ e.names, Named src id
  | [], left, e, _, hl, h => by
    simp only [Build.logicalChain, Option.some.injEq] at h
    exact h ▸ hl
  | r :: rest, left, e, hcs, hl, h => by
    simp only [Build.logicalChain] at h
    obtain ⟨right, hright, h⟩ := Option.bind_eq_some_iff.mp h
    have hr := (hcs r (List.mem_cons_self ..)).head.2.1 right hright
    refine Build.logicalChain_names start op (fun c hc => hcs c (List.mem_cons_of_mem _ hc)) ?_ h
    simp only [Expr.names, List.forall_mem_append]
    exact ⟨hl, hr⟩

/-- A prefix operator keeps the names of its operand. -/
theorem Build.applyPrefix?_names {stop : Nat} {op : Node Rule} {arg e : Expr}
    (h : Build.applyPrefix? src stop op arg = some e) : e.names = arg.names := by
  unfold Build.applyPrefix? at h
  split at h
  · cases h
    rfl
  · obtain ⟨u, -, rfl⟩ := Option.map_eq_some_iff.mp h
    rfl

theorem Build.prefixed_names (stop : Nat) : ∀ {cs : List (Node Rule)} {e : Expr},
    (∀ c ∈ cs, c.Every (NamesFrom src)) → Build.prefixed src stop cs = some e →
      ∀ id ∈ e.names, Named src id
  | [], _, _, h => by simp [Build.prefixed] at h
  | [arg], e, hcs, h => by
    simp only [Build.prefixed] at h
    exact (hcs arg (List.mem_singleton_self _)).head.2.1 e h
  | op :: a :: rest, e, hcs, h => by
    simp only [Build.prefixed] at h
    obtain ⟨arg, harg, h⟩ := Option.bind_eq_some_iff.mp h
    rw [Build.applyPrefix?_names h]
    exact Build.prefixed_names stop (fun c hc => hcs c (List.mem_cons_of_mem _ hc)) harg

theorem Build.suffixChain_names (start : Nat) {cs : List (Node Rule)} :
    ∀ {obj e : Expr}, (∀ c ∈ cs, c.Every (NamesFrom src)) →
      (∀ id ∈ obj.names, Named src id) →
      Build.suffixChain src start obj cs = some e → ∀ id ∈ e.names, Named src id := by
  induction cs with
  | nil =>
    intro obj e _ hobj h
    simp only [Build.suffixChain, Option.some.injEq] at h
    exact h ▸ hobj
  | cons n rest ih =>
    intro obj e hcs hobj h
    have hrest : ∀ c ∈ rest, c.Every (NamesFrom src) :=
      fun c hc => hcs c (List.mem_cons_of_mem _ hc)
    have hn := hcs n (List.mem_cons_self ..)
    unfold Build.suffixChain at h
    split at h
    · next _ _ b args rest' heq =>
      -- a call: its arguments are the children of the `arguments` node
      obtain ⟨rfl, rfl⟩ := List.cons.inj heq
      obtain ⟨vs, hvs, h⟩ := Option.bind_eq_some_iff.mp h
      refine ih hrest ?_ h
      simp only [Expr.names, List.forall_mem_append]
      exact ⟨hobj, Build.exprs_names hn.children hvs⟩
    · next _ _ b k rest' heq =>
      -- a property name after `.` is no name
      obtain ⟨rfl, rfl⟩ := List.cons.inj heq
      refine ih hrest ?_ h
      simpa only [Expr.names] using hobj
    · next _ _ b k rest' heq =>
      obtain ⟨rfl, rfl⟩ := List.cons.inj heq
      obtain ⟨key, hkey, h⟩ := Option.bind_eq_some_iff.mp h
      refine ih hrest ?_ h
      simp only [Expr.names, List.forall_mem_append]
      exact ⟨hobj, (hn.children k (List.mem_singleton_self _)).head.2.1 key hkey⟩
    · next _ heq => cases heq
    · simp at h

theorem Build.suffixed_names (start : Nat) {e : Expr} (hcs : ∀ c ∈ cs, c.Every (NamesFrom src))
    (h : Build.suffixed src start cs = some e) : ∀ id ∈ e.names, Named src id := by
  cases cs with
  | nil => simp [Build.suffixed] at h
  | cons c rest =>
    simp only [Build.suffixed] at h
    obtain ⟨obj, hobj, h⟩ := Option.bind_eq_some_iff.mp h
    exact Build.suffixChain_names start (fun c' hc' => hcs c' (List.mem_cons_of_mem _ hc'))
      ((hcs c (List.mem_cons_self ..)).head.2.1 obj hobj) h

theorem Build.props_names : ∀ {cs : List (Node Rule)} {ps : List Property},
    (∀ c ∈ cs, c.Every (NamesFrom src)) → Build.props src cs = some ps →
      ∀ id ∈ Property.namesOfList ps, Named src id := by
  intro cs
  induction cs with
  | nil =>
    intro ps _ h
    simp only [Build.props, Option.some.injEq] at h
    subst h
    simp [Property.namesOfList]
  | cons n rest ih =>
    intro ps hcs h
    unfold Build.props at h
    split at h
    · next _ _ _ k v rest' heq =>
      -- a key is no name; the value is the second child of the entry's node
      obtain ⟨rfl, rfl⟩ := List.cons.inj heq
      have hn := hcs _ (List.mem_cons_self ..)
      obtain ⟨key, -, h⟩ := Option.bind_eq_some_iff.mp h
      obtain ⟨value, hvalue, h⟩ := Option.bind_eq_some_iff.mp h
      obtain ⟨ps', hps', h⟩ := Option.bind_eq_some_iff.mp h
      simp only [Option.some.injEq] at h
      subst h
      simp only [Property.namesOfList, List.forall_mem_append]
      exact ⟨(hn.children v (by simp)).head.2.1 value hvalue,
        ih (fun c hc => hcs c (List.mem_cons_of_mem _ hc)) hps'⟩
    · next _ heq => cases heq
    · simp at h

theorem Build.stmts_names : ∀ {cs : List (Node Rule)} {ss : List Stmt},
    (∀ c ∈ cs, c.Every (NamesFrom src)) → Build.stmts src cs = some ss →
      ∀ id ∈ Stmt.namesOfList ss, Named src id
  | [], ss, _, h => by
    simp only [Build.stmts, Option.some.injEq] at h
    subst h
    simp [Stmt.namesOfList]
  | c :: cs, ss, hcs, h => by
    simp only [Build.stmts] at h
    obtain ⟨s, hs, h⟩ := Option.bind_eq_some_iff.mp h
    obtain ⟨ss', hss', h⟩ := Option.bind_eq_some_iff.mp h
    simp only [Option.some.injEq] at h
    subst h
    simp only [Stmt.namesOfList, List.forall_mem_append]
    exact ⟨(hcs c (List.mem_cons_self ..)).head.2.2 s hs,
      Build.stmts_names (fun c' hc' => hcs c' (List.mem_cons_of_mem _ hc')) hss'⟩

/-- The name a declarator declares is the first child of a `variable_declaration` node, an
`identifier` node. -/
theorem Build.declarators_names : ∀ {cs : List (Node Rule)} {ds : List Declarator},
    (∀ c ∈ cs, c.Every (NamesFrom src)) → Build.declarators src cs = some ds →
      ∀ id ∈ Declarator.namesOfList ds, Named src id := by
  intro cs
  induction cs with
  | nil =>
    intro ds _ h
    simp only [Build.declarators, Option.some.injEq] at h
    subst h
    simp [Declarator.namesOfList]
  | cons n rest ih =>
    intro ds hcs h
    unfold Build.declarators at h
    split at h
    · next _ a b ks rest' heq =>
      obtain ⟨rfl, rfl⟩ := List.cons.inj heq
      have hn := hcs _ (List.mem_cons_self ..)
      obtain ⟨i, hi, hks, hir⟩ := variableDeclaration_children hn.head.1 rfl
      simp only at hks
      subst hks
      have hname : Named src (src.ident i) :=
        ⟨i, (hn.children i (List.mem_cons_self ..)).head.1, hir, rfl⟩
      -- the declarator: a name, and an initialiser that is the second child
      dsimp only at h
      split at h
      · next _ i' heq' =>
        obtain ⟨rfl, rfl⟩ := List.cons.inj heq'
        obtain ⟨_, ⟨⟩, h⟩ := Option.bind_eq_some_iff.mp h
        obtain ⟨ds', hds', h⟩ := Option.bind_eq_some_iff.mp h
        simp only [Option.some.injEq] at h
        subst h
        simp only [Declarator.namesOfList, Expr.namesOfOption, List.nil_append,
          List.forall_mem_cons]
        exact ⟨hname, ih (fun c hc => hcs c (List.mem_cons_of_mem _ hc)) hds'⟩
      · next _ i' x heq' =>
        obtain ⟨rfl, rfl⟩ := List.cons.inj heq'
        obtain ⟨init, hinit, h⟩ := Option.bind_eq_some_iff.mp h
        obtain ⟨_, ⟨⟩, h⟩ := Option.bind_eq_some_iff.mp h
        obtain ⟨ds', hds', h⟩ := Option.bind_eq_some_iff.mp h
        simp only [Option.some.injEq] at h
        subst h
        simp only [Declarator.namesOfList, Expr.namesOfOption, List.forall_mem_cons,
          List.forall_mem_append]
        exact ⟨hname, (hn.children x (by simp)).head.2.1 init hinit,
          ih (fun c hc => hcs c (List.mem_cons_of_mem _ hc)) hds'⟩
      · simp at h
    · next _ heq => cases heq
    · simp at h

/-- A function's name is a child `identifier` node, its parameters are the children of its
`formal_parameters` node, and its body is the statements of its `function_body` node. -/
theorem Build.funcParts_names {cs : List (Node Rule)} :
    ∀ {name : Option Ident} {params : List Ident} {body : Option (Span × List Stmt)},
      (∀ c ∈ cs, c.Every (NamesFrom src)) →
        Build.funcParts src cs = some (name, params, body) →
        (∀ id ∈ name.toList, Named src id) ∧ (∀ id ∈ params, Named src id) ∧
          ∀ sp ss, body = some (sp, ss) → ∀ id ∈ Stmt.namesOfList ss, Named src id := by
  induction cs with
  | nil =>
    intro name params body _ h
    simp only [Build.funcParts, Option.some.injEq, Prod.mk.injEq] at h
    obtain ⟨rfl, rfl, rfl⟩ := h
    simp
  | cons n rest ih =>
    intro name params body hcs h
    have hrest : ∀ c ∈ rest, c.Every (NamesFrom src) :=
      fun c hc => hcs c (List.mem_cons_of_mem _ hc)
    have hn := hcs n (List.mem_cons_self ..)
    unfold Build.funcParts at h
    split at h
    · next heq => cases heq
    · next _ _ _ _ rest' heq =>
      obtain ⟨rfl, rfl⟩ := List.cons.inj heq
      obtain ⟨⟨name', params', body'⟩, hparts, h⟩ := Option.bind_eq_some_iff.mp h
      simp only [Option.some.injEq, Prod.mk.injEq] at h
      obtain ⟨rfl, rfl, rfl⟩ := h
      obtain ⟨-, hparams, hbody⟩ := ih hrest hparts
      refine ⟨?_, hparams, hbody⟩
      simp only [Option.toList_some, List.mem_singleton, forall_eq]
      exact ⟨_, hn.head.1, rfl, rfl⟩
    · next _ _ _ ps rest' heq =>
      obtain ⟨rfl, rfl⟩ := List.cons.inj heq
      obtain ⟨⟨name', params', body'⟩, hparts, h⟩ := Option.bind_eq_some_iff.mp h
      simp only [Option.some.injEq, Prod.mk.injEq] at h
      obtain ⟨rfl, rfl, rfl⟩ := h
      obtain ⟨hname, -, hbody⟩ := ih hrest hparts
      refine ⟨hname, ?_, hbody⟩
      -- each parameter is read off an `identifier` child of `formal_parameters`
      simp only [List.mem_map, forall_exists_index, and_imp]
      rintro _ p hp rfl
      exact ⟨p, (hn.children p hp).head.1, formalParameters_children hn.head.1 rfl p hp, rfl⟩
    · next _ a b ss rest' heq =>
      obtain ⟨rfl, rfl⟩ := List.cons.inj heq
      obtain ⟨⟨name', params', body'⟩, hparts, h⟩ := Option.bind_eq_some_iff.mp h
      obtain ⟨stmts, hstmts, h⟩ := Option.bind_eq_some_iff.mp h
      simp only [Option.some.injEq, Prod.mk.injEq] at h
      obtain ⟨rfl, rfl, rfl⟩ := h
      obtain ⟨hname, hparams, -⟩ := ih hrest hparts
      refine ⟨hname, hparams, ?_⟩
      rintro sp ss' ⟨⟩
      exact Build.stmts_names hn.children hstmts
    · simp at h

/-- The clauses of a `for` loop are its `for_init`, `for_test` and `for_update` children and
the body the rest: each is what the builder makes of its node. -/
theorem Build.forParts_names {cs : List (Node Rule)} :
    ∀ {init : Option ForInit} {test update : Option Expr} {body : Option Stmt},
      (∀ c ∈ cs, c.Every (NamesFrom src)) →
        Build.forParts src cs = some (init, test, update, body) →
          (∀ id ∈ ForInit.namesOfOption init, Named src id) ∧
            (∀ id ∈ Expr.namesOfOption test, Named src id) ∧
            (∀ id ∈ Expr.namesOfOption update, Named src id) ∧
            ∀ id ∈ Stmt.namesOfOption body, Named src id := by
  induction cs with
  | nil =>
    intro init test update body _ h
    simp only [Build.forParts, Option.some.injEq, Prod.mk.injEq] at h
    obtain ⟨rfl, rfl, rfl, rfl⟩ := h
    simp [ForInit.namesOfOption, Expr.namesOfOption, Stmt.namesOfOption]
  | cons n rest ih =>
    intro init test update body hcs h
    have hrest : ∀ c ∈ rest, c.Every (NamesFrom src) :=
      fun c hc => hcs c (List.mem_cons_of_mem _ hc)
    have hn := hcs n (List.mem_cons_self ..)
    unfold Build.forParts at h
    split at h
    · next heq => cases heq
    · next _ _ _ ks rest' heq =>
      obtain ⟨rfl, rfl⟩ := List.cons.inj heq
      obtain ⟨⟨init', test', update', body'⟩, hparts, h⟩ := Option.bind_eq_some_iff.mp h
      obtain ⟨-, htest, hupdate, hbody⟩ := ih hrest hparts
      dsimp only at h
      -- the first clause: a `var` list, or an expression
      split at h
      · next a b ds =>
        obtain ⟨vs, hvs, h⟩ := Option.bind_eq_some_iff.mp h
        obtain ⟨_, ⟨⟩, h⟩ := Option.bind_eq_some_iff.mp h
        simp only [Option.some.injEq, Prod.mk.injEq] at h
        obtain ⟨rfl, rfl, rfl, rfl⟩ := h
        refine ⟨?_, htest, hupdate, hbody⟩
        exact Build.declarators_names (hn.children _ (List.mem_singleton_self _)).children hvs
      · obtain ⟨x, hx, h⟩ := Option.bind_eq_some_iff.mp h
        obtain ⟨_, ⟨⟩, h⟩ := Option.bind_eq_some_iff.mp h
        simp only [Option.some.injEq, Prod.mk.injEq] at h
        obtain ⟨rfl, rfl, rfl, rfl⟩ := h
        exact ⟨(hn.children _ (List.mem_singleton_self _)).head.2.1 x hx, htest, hupdate, hbody⟩
      · simp at h
    · next _ _ _ ks rest' heq =>
      obtain ⟨rfl, rfl⟩ := List.cons.inj heq
      obtain ⟨⟨init', test', update', body'⟩, hparts, h⟩ := Option.bind_eq_some_iff.mp h
      obtain ⟨hinit, -, hupdate, hbody⟩ := ih hrest hparts
      dsimp only at h
      split at h
      · obtain ⟨x, hx, h⟩ := Option.bind_eq_some_iff.mp h
        simp only [Option.some.injEq, Prod.mk.injEq] at h
        obtain ⟨rfl, rfl, rfl, rfl⟩ := h
        exact ⟨hinit, (hn.children _ (List.mem_singleton_self _)).head.2.1 x hx, hupdate, hbody⟩
      · cases h
    · next _ _ _ ks rest' heq =>
      obtain ⟨rfl, rfl⟩ := List.cons.inj heq
      obtain ⟨⟨init', test', update', body'⟩, hparts, h⟩ := Option.bind_eq_some_iff.mp h
      obtain ⟨hinit, htest, -, hbody⟩ := ih hrest hparts
      dsimp only at h
      split at h
      · obtain ⟨x, hx, h⟩ := Option.bind_eq_some_iff.mp h
        simp only [Option.some.injEq, Prod.mk.injEq] at h
        obtain ⟨rfl, rfl, rfl, rfl⟩ := h
        exact ⟨hinit, htest, (hn.children _ (List.mem_singleton_self _)).head.2.1 x hx, hbody⟩
      · cases h
    · next _ s rest' _ _ _ heq =>
      -- any other child is the body
      obtain ⟨rfl, rfl⟩ := List.cons.inj heq
      obtain ⟨⟨init', test', update', body'⟩, hparts, h⟩ := Option.bind_eq_some_iff.mp h
      obtain ⟨hinit, htest, hupdate, -⟩ := ih hrest hparts
      dsimp only at h
      obtain ⟨x, hx, h⟩ := Option.bind_eq_some_iff.mp h
      simp only [Option.some.injEq, Prod.mk.injEq] at h
      obtain ⟨rfl, rfl, rfl, rfl⟩ := h
      exact ⟨hinit, htest, hupdate, hn.head.2.2 x hx⟩

/-- A function made of its parts has only the names its parts are made of. -/
theorem Build.func?_names {span : Span} {parts} {f : Func}
    (hcs : ∀ c ∈ cs, c.Every (NamesFrom src))
    (hparts : Build.funcParts src cs = some parts) (hf : Build.func? span parts = some f) :
    ∀ id ∈ f.names, Named src id := by
  obtain ⟨name, params, body⟩ := parts
  obtain ⟨hname, hparams, hbody⟩ := Build.funcParts_names hcs hparts
  rcases body with _ | ⟨sp, ss⟩
  · simp [Build.func?] at hf
  · simp only [Build.func?, Option.some.injEq] at hf
    subst hf
    simp only [Func.names, List.forall_mem_append]
    exact ⟨⟨hname, hparams⟩, hbody sp ss rfl⟩

end Lists

section Nodes

variable {n : Node Rule} (hn : n.Settled scriptGrammar src.chars)
  (hcs : ∀ c ∈ n.children, c.Every (NamesFrom src))
include hn hcs

/-- The names of the expression a node stands for are read off `identifier` nodes: the node
itself, or nodes below it. -/
theorem Build.expr_names {e : Expr} (h : Build.expr src n = some e) :
    ∀ id ∈ e.names, Named src id := by
  have hc : ∀ c ∈ n.children, ∀ e, Build.expr src c = some e →
      ∀ id ∈ e.names, Named src id :=
    fun c hc => (hcs c hc).head.2.1
  unfold Build.expr at h
  split at h
  · -- a sequence, or its only expression
    obtain ⟨items, hitems, h⟩ := Option.bind_eq_some_iff.mp h
    have hnames := Build.exprs_names hcs hitems
    split at h <;> cases h
    · simpa [Expr.namesOfList] using hnames
    · simpa [Expr.names] using hnames
  · split at h
    · exact hc _ (by simp) e h
    · obtain ⟨o, -, h⟩ := Option.bind_eq_some_iff.mp h
      obtain ⟨target, htarget, h⟩ := Option.bind_eq_some_iff.mp h
      obtain ⟨value, hvalue, h⟩ := Option.bind_eq_some_iff.mp h
      cases h
      simp only [Expr.names, List.forall_mem_append]
      exact ⟨hc _ (by simp) _ htarget, hc _ (by simp) _ hvalue⟩
    · cases h
  · split at h
    · exact hc _ (by simp) e h
    · obtain ⟨test, htest, h⟩ := Option.bind_eq_some_iff.mp h
      obtain ⟨yes, hyes, h⟩ := Option.bind_eq_some_iff.mp h
      obtain ⟨no, hno, h⟩ := Option.bind_eq_some_iff.mp h
      cases h
      simp only [Expr.names, List.forall_mem_append]
      exact ⟨⟨hc _ (by simp) _ htest, hc _ (by simp) _ hyes⟩, hc _ (by simp) _ hno⟩
    · cases h
  all_goals first
    | -- `||` and `&&` chains
      split at h
      · obtain ⟨left, hleft, h⟩ := Option.bind_eq_some_iff.mp h
        exact Build.logicalChain_names _ _ (fun c hc' => hcs c (List.mem_cons_of_mem _ hc'))
          (hc _ (List.mem_cons_self ..) left hleft) h
      · cases h
    | exact Build.binary_names _ hcs h
    | exact Build.prefixed_names _ hcs h
    | exact Build.suffixed_names _ hcs h
    | skip
  · split at h
    · exact hc _ (by simp) e h
    · obtain ⟨u, -, h⟩ := Option.bind_eq_some_iff.mp h
      obtain ⟨arg, harg, h⟩ := Option.bind_eq_some_iff.mp h
      cases h
      exact hc _ (List.mem_cons_self ..) arg harg
    · cases h
  · -- `new` with arguments: these are the children of the `arguments` node
    split at h
    · obtain ⟨callee, hcallee, h⟩ := Option.bind_eq_some_iff.mp h
      obtain ⟨args, hargs, h⟩ := Option.bind_eq_some_iff.mp h
      cases h
      simp only [Expr.names, List.forall_mem_append]
      exact ⟨hc _ (by simp) _ hcallee, Build.exprs_names
        (hcs _ (List.mem_cons_of_mem _ (List.mem_singleton_self _))).children hargs⟩
    · cases h
  · split at h
    · obtain ⟨callee, hcallee, h⟩ := Option.bind_eq_some_iff.mp h
      cases h
      simpa [Expr.names, Expr.namesOfList] using hc _ (by simp) _ hcallee
    · cases h
  · cases h
    simp [Expr.names]
  · obtain ⟨parts, hparts, h⟩ := Option.bind_eq_some_iff.mp h
    obtain ⟨f, hf, h⟩ := Option.bind_eq_some_iff.mp h
    cases h
    exact Build.func?_names hcs hparts hf
  · -- the node itself is an `identifier` node
    cases h
    simp only [Expr.names, List.mem_singleton, forall_eq]
    exact ⟨_, hn, rfl, rfl⟩
  · obtain ⟨es, hes, h⟩ := Option.bind_eq_some_iff.mp h
    cases h
    exact Build.exprs_names hcs hes
  · obtain ⟨ps, hps, h⟩ := Option.bind_eq_some_iff.mp h
    cases h
    exact Build.props_names hcs hps
  · obtain ⟨l, -, rfl⟩ := Option.map_eq_some_iff.mp h
    simp [Expr.names]

/-- The names of the statement a node stands for are read off `identifier` nodes below it. -/
theorem Build.stmt_names {s : Stmt} (h : Build.stmt src n = some s) :
    ∀ id ∈ s.names, Named src id := by
  have hc : ∀ c ∈ n.children, ∀ e, Build.expr src c = some e →
      ∀ id ∈ e.names, Named src id :=
    fun c hc => (hcs c hc).head.2.1
  have hs : ∀ c ∈ n.children, ∀ s, Build.stmt src c = some s →
      ∀ id ∈ s.names, Named src id :=
    fun c hc => (hcs c hc).head.2.2
  unfold Build.stmt at h
  split at h
  · obtain ⟨ss, hss, h⟩ := Option.bind_eq_some_iff.mp h
    cases h
    exact Build.stmts_names hcs hss
  · -- the declarations are the children of the only child, a `variable_declaration_list` node
    split at h
    · obtain ⟨ds, hds, h⟩ := Option.bind_eq_some_iff.mp h
      cases h
      exact Build.declarators_names (hcs _ (List.mem_singleton_self _)).children hds
    · cases h
  · cases h
    simp [Stmt.names]
  · split at h
    · obtain ⟨test, htest, h⟩ := Option.bind_eq_some_iff.mp h
      obtain ⟨yes, hyes, h⟩ := Option.bind_eq_some_iff.mp h
      cases h
      simp only [Stmt.names, Stmt.namesOfOption, List.append_nil, List.forall_mem_append]
      exact ⟨hc _ (by simp) test htest, hs _ (by simp) yes hyes⟩
    · obtain ⟨test, htest, h⟩ := Option.bind_eq_some_iff.mp h
      obtain ⟨yes, hyes, h⟩ := Option.bind_eq_some_iff.mp h
      obtain ⟨no, hno, h⟩ := Option.bind_eq_some_iff.mp h
      cases h
      simp only [Stmt.names, Stmt.namesOfOption, List.forall_mem_append]
      exact ⟨⟨hc _ (by simp) test htest, hs _ (by simp) yes hyes⟩, hs _ (by simp) no hno⟩
    · cases h
  · split at h
    · obtain ⟨test, htest, h⟩ := Option.bind_eq_some_iff.mp h
      obtain ⟨body, hbody, h⟩ := Option.bind_eq_some_iff.mp h
      cases h
      simp only [Stmt.names, List.forall_mem_append]
      exact ⟨hc _ (by simp) test htest, hs _ (by simp) body hbody⟩
    · cases h
  · obtain ⟨⟨init, test, update, body⟩, hparts, h⟩ := Option.bind_eq_some_iff.mp h
    obtain ⟨hinit, htest, hupdate, hbody⟩ := Build.forParts_names hcs hparts
    obtain ⟨b, rfl, h⟩ := Option.bind_eq_some_iff.mp h
    cases h
    simp only [Stmt.names, List.forall_mem_append]
    exact ⟨⟨⟨hinit, htest⟩, hupdate⟩, hbody⟩
  · cases h
    simp [Stmt.names]
  · cases h
    simp [Stmt.names]
  · split at h
    · cases h
      simp [Stmt.names, Expr.namesOfOption]
    · obtain ⟨arg, harg, h⟩ := Option.bind_eq_some_iff.mp h
      cases h
      exact hc _ (List.mem_singleton_self _) arg harg
    · cases h
  · obtain ⟨parts, hparts, h⟩ := Option.bind_eq_some_iff.mp h
    obtain ⟨f, hf, h⟩ := Option.bind_eq_some_iff.mp h
    cases h
    exact Build.func?_names hcs hparts hf
  · split at h
    · obtain ⟨e, he, h⟩ := Option.bind_eq_some_iff.mp h
      cases h
      exact hc _ (List.mem_singleton_self _) e he
    · cases h
  · cases h

/-- The builder reads every settled node whose descendants it reads with names of identifier
nodes in the same way. -/
theorem NamesFrom.of_children : NamesFrom src n :=
  ⟨hn, fun _ => Build.expr_names hn hcs, fun _ => Build.stmt_names hn hcs⟩

end Nodes

/-- The builder reads every node below a settled node with names of identifier nodes. -/
theorem Peg.Node.Every.namesFrom {nd : Node Rule}
    (h : nd.Every (Node.Settled scriptGrammar src.chars)) :
    nd.Every (NamesFrom src) := by
  induction h with
  | intro hnd _ ih => exact .intro (NamesFrom.of_children hnd ih) ih

/-- The name read off a settled `identifier` node is a word and no keyword. -/
theorem Named.isIdentifierName {id : Ident} (h : Named src id) :
    isIdentifierName id.name = true := by
  obtain ⟨nd, hnd, hr, rfl⟩ := h
  obtain ⟨w, rest, hdrop, hstop, hname, -, -⟩ := identifier_node_word hnd hr
  have htext : (src.chars.extract nd.start nd.stop).toList = w := by
    rw [Array.toList_extract, List.extract_eq_take_drop, hdrop, hstop, Nat.add_sub_cancel_left]
    simp
  show EcmaLite.isIdentifierName (String.ofList (src.chars.extract nd.start nd.stop).toList) = true
  rw [htext]
  exact hname

/-- Every name of a script that reads is read off a settled `identifier` node of its parse. -/
theorem Program.names_named {text : String} {prog : Program} (h : Program.parse text = .ok prog) :
    ∀ id ∈ prog.names, Named (Source.ofString text) id := by
  obtain ⟨nodes, hparse, hprog⟩ := Program.parse_eq_ok h
  have hset := parse_settled hparse
  unfold Program.ofNodes? at hprog
  split at hprog
  · obtain ⟨body, hbody, hprog⟩ := Option.bind_eq_some_iff.mp hprog
    cases hprog
    -- the statements are the children of the `script` node, but for the end of input
    have hroot := ((hset _ (List.mem_singleton_self _)).every scriptFuelPlan).namesFrom
    exact Build.stmts_names (fun c hc => hroot.children c (List.mem_filter.mp hc).1) hbody
  · cases hprog

/-- Every name of a script that reads is a word and no keyword. -/
theorem names_are_identifierNames {text : String} {prog : Program}
    (h : Program.parse text = .ok prog) : ∀ id ∈ prog.names, isIdentifierName id.name = true :=
  fun id hid => (Program.names_named h id hid).isIdentifierName

/-! ## Keywords stand whole

A keyword-led item of the grammar (`word w`) looks ahead for a whole keyword, and the operators
written as keywords are `whole` texts. So a node of a parse that starts with a keyword, or an
operator node that is one, has its keyword followed by no identifier character. -/

/-- The keyword the rule's body starts with, for the statements and expressions that start with
one. -/
def Rule.leadingWord : Rule → Option String
  | .variableStatement => some "var"
  | .ifStatement => some "if"
  | .whileStatement => some "while"
  | .forStatement => some "for"
  | .breakStatement => some "break"
  | .continueStatement => some "continue"
  | .returnStatement => some "return"
  | .functionDeclaration | .functionExpression => some "function"
  | .newMember | .newNoArgs => some "new"
  | _ => none

theorem Rule.body_of_leadingWord {r : Rule} {w : String} (h : r.leadingWord = some w) :
    ∃ rest, Rule.body r = .seq (Rule.word w) rest := by
  cases r <;> cases h <;> exact ⟨_, rfl⟩

/-- A word of identifier characters that is a prefix of no keyword but itself, checked as a
`Bool`. -/
theorem word_of_checked {w : String}
    (h : (w.toList.all isIdentPart &&
      keywords.all fun k => !w.toList.isPrefixOf k.toList || k.toList == w.toList) = true) :
    (∀ c ∈ w.toList, isIdentPart c = true) ∧ ∀ k ∈ keywords, w.toList <+: k.toList → w = k := by
  simp only [Bool.and_eq_true, List.all_eq_true, Bool.or_eq_true, Bool.not_eq_true',
    beq_iff_eq] at h
  refine ⟨h.1, fun k hk hpre => ?_⟩
  rcases h.2 k hk with hnot | heq
  · rw [List.isPrefixOf_iff_prefix.mpr hpre] at hnot
    cases hnot
  · exact (String.toList_inj.mp heq).symm

/-- Each leading keyword is made of identifier characters and is a prefix of no other keyword. -/
theorem Rule.leadingWord_word {r : Rule} {w : String} (h : r.leadingWord = some w) :
    (∀ c ∈ w.toList, isIdentPart c = true) ∧
      ∀ k ∈ keywords, w.toList <+: k.toList → w = k := by
  cases r <;> cases h <;> exact word_of_checked (by decide)

/-- A keyword-led node of a parse starts with its keyword followed by no identifier character. -/
theorem leadingWord_node_whole {src : Array Char} {nd : Node Rule} {w : String}
    (h : nd.Settled scriptGrammar src) (hw : nd.rule.leadingWord = some w) :
    ∃ rest, src.toList.drop nd.start = w.toList ++ rest ∧
      rest.head?.any isIdentPart = false := by
  obtain ⟨body, hbody⟩ := Rule.body_of_leadingWord hw
  have hy : Yields scriptGrammar src _ (Rule.body nd.rule) nd.start _ := h.yields scriptFuelPlan
  rw [hbody] at hy
  obtain ⟨q, xs, ys, hword, -, -⟩ := Yields.seq_some hy
  obtain ⟨hpart, hpre⟩ := Rule.leadingWord_word hw
  exact word_some hpart hpre hword

/-- An operator node of a parse whose text is a keyword (`typeof`, `void`, `delete`,
`instanceof`, `in`) is followed by no identifier character. -/
theorem operator_node_whole {src : Array Char} {nd : Node Rule} (h : nd.Settled scriptGrammar src)
    (hr : nd.rule = .unaryOperator ∨ nd.rule = .relationalOperator)
    (hk : keywords.contains (String.ofList (src.extract nd.start nd.stop).toList) = true) :
    (src.toList.drop nd.stop).head?.any isIdentPart = false := by
  -- the node's body, read as its rule from a mode that is not atomic
  have hy := Yields.rule (m := ⟨.none, false⟩) (h.yields scriptFuelPlan)
  rcases hr with hr | hr <;> rw [hr] at hy
  · exact unaryOperator_keyword_whole hy hk
  · exact relationalOperator_keyword_whole hy hk

/-- What a node checked of the keywords at its ends: a keyword-led node starts with its keyword
followed by no identifier character, and an operator node whose text is a keyword is followed by
none. -/
def KeywordsWhole (src : Array Char) (nd : Node Rule) : Prop :=
  (∀ w, nd.rule.leadingWord = some w →
    ∃ rest, src.toList.drop nd.start = w.toList ++ rest ∧
      rest.head?.any isIdentPart = false) ∧
  ((nd.rule = .unaryOperator ∨ nd.rule = .relationalOperator) →
    keywords.contains (String.ofList (src.extract nd.start nd.stop).toList) = true →
      (src.toList.drop nd.stop).head?.any isIdentPart = false)

/-- Every node of a parse of a script checked its keywords whole. -/
theorem parse_keywords_whole {src : Array Char} {nodes : List (Node Rule)}
    (h : Peg.parse scriptGrammar .script src = .ok nodes) :
    ∀ nd ∈ nodes, nd.Every (KeywordsWhole src) := by
  intro nd hnd
  refine ((parse_settled h nd hnd).every scriptFuelPlan).imp fun n hn => ?_
  exact ⟨fun _ hw => leadingWord_node_whole hn hw, operator_node_whole hn⟩

/-! ## Names are exactly the words that are no keywords -/

/-- At a run of identifier characters followed by none, `identifier` reads the run exactly when
it is a word and no keyword. -/
theorem identifier_reads_word {src : Array Char} (m : Mode) {p : Nat} {w rest : List Char}
    (hdrop : src.toList.drop p = w ++ rest) (hw : ∀ c ∈ w, isIdentPart c = true)
    (hrest : rest.head?.any isIdentPart = false) :
    Yields scriptGrammar src m (.rule .identifier) p
      ((if isIdentifierName (String.ofList w) then some (p + w.length, []) else none).map
        (RunsTo.ruleNodes scriptGrammar m .identifier p)) := by
  have h := identifier_yields (m := m) hdrop
  rwa [wordAt_append hw hrest] at h

/-- At a run of identifier characters followed by none, `identifier_name` reads the run exactly
when it is a word, keywords included. -/
theorem identifierName_reads_word {src : Array Char} (m : Mode) {p : Nat} {w rest : List Char}
    (hdrop : src.toList.drop p = w ++ rest) (hw : ∀ c ∈ w, isIdentPart c = true)
    (hrest : rest.head?.any isIdentPart = false) :
    Yields scriptGrammar src m (.rule .identifierName) p
      ((if isWord w then some (p + w.length, []) else none).map
        (RunsTo.ruleNodes scriptGrammar m .identifierName p)) := by
  have h := identifierName_yields (m := m) hdrop
  rwa [wordAt_append hw hrest] at h

/-- The names of a script are exactly the words that are no keywords. Every name of a script that
reads (its identifier expressions, declared names, function names and parameters) is such a word;
at a run of identifier characters followed by none, `identifier` reads the run exactly when it is
such a word, so also where it starts with a keyword, and `identifier_name`, which reads the names
after `.` and the keys of object literals, exactly when it is a word, keywords included; and
every node of a parse that starts with a keyword, or is an operator written as one, has it
followed by no identifier character. -/
theorem identifiers_are_nonKeyword_words :
    (∀ (text : String) (prog : Program), Program.parse text = .ok prog →
      ∀ id ∈ prog.names, isIdentifierName id.name = true) ∧
    (∀ (src : Array Char) (m : Mode) (p : Nat) (w rest : List Char),
      src.toList.drop p = w ++ rest → (∀ c ∈ w, isIdentPart c = true) →
        rest.head?.any isIdentPart = false →
        (∃ k, RunsTo scriptGrammar src m (.rule .identifier) p
          ((if isIdentifierName (String.ofList w) then some (p + w.length, []) else none).map
            (RunsTo.ruleNodes scriptGrammar m .identifier p)) k) ∧
        ∃ k, RunsTo scriptGrammar src m (.rule .identifierName) p
          ((if isWord w then some (p + w.length, []) else none).map
            (RunsTo.ruleNodes scriptGrammar m .identifierName p)) k) ∧
    ∀ (src : Array Char) (nodes : List (Node Rule)),
      Peg.parse scriptGrammar .script src = .ok nodes →
        ∀ nd ∈ nodes, nd.Every (KeywordsWhole src) :=
  ⟨fun _ _ h => names_are_identifierNames h,
    fun _ m _ _ _ hdrop hw hrest => ⟨(identifier_reads_word m hdrop hw hrest).runsTo,
      (identifierName_reads_word m hdrop hw hrest).runsTo⟩,
    fun _ _ h => parse_keywords_whole h⟩

/-- `variable` starts with the keyword `var`, and `identifier` reads all of it as a name. -/
theorem variable_reads_as_identifier :
    ∃ k, RunsTo scriptGrammar "variable".toList.toArray ⟨.none, false⟩ (.rule .identifier) 0
      (some (8, [⟨.identifier, 0, 8, []⟩])) k := by
  have h := (identifiers_are_nonKeyword_words.2.1 "variable".toList.toArray ⟨.none, false⟩ 0
    "variable".toList [] (by simp) (List.all_eq_true.mp (by decide)) rfl).1
  have hname : isIdentifierName "variable" = true := by decide
  simpa [hname, RunsTo.ruleNodes, scriptGrammar, Rule.kind] using h

example : isIdentifierName "instanceofx" = true ∧ isIdentifierName "nulls" = true ∧
    isIdentifierName "in" = false := by decide

end EcmaLite
