import EcmaLite.Proofs.SpanLayout
import EcmaLite.Proofs.IdentifierNames

/-!
# Where the builder puts its spans

The builder gives each node of a syntax tree a byte span. Most spans are those of the parse-tree
node it read the syntax from. The links of a chain and the prefix operators get spans that the
builder puts together from the positions of such nodes. This module gives each node of a syntax
tree a `SpanTree` of its spans (`Expr.spanTree`, `Stmt.spanTree`, `Program.spanTree`), whose
children are the trees of its operands, elements, names, declarators, properties and body, in
source order. It then shows, for each function of the builder that reads a list of nodes, that
what it makes of nodes laid one after the other lies between their ends, each tree nested
(`Build.exprs_placed`, `Build.binaryChain_placed`, `Build.prefixed_placed`, ...), given nodes
whose descendants the builder reads the same way (`SpansFrom`).

A chain link spans from the chain's start to the end of its last operand or suffix, and a
prefix operator from the operator to the end of the whole unary expression. The children of a
parse-tree node lie inside it in order (`Peg.Node.Settled.laid`), and byte offsets grow with
the position, so such a span holds the link's own children.
-/

namespace EcmaLite

/-! ## The span tree of a syntax tree -/

/-- A name's span, as a leaf. -/
def Ident.spanTree (id : Ident) : SpanTree := ⟨id.span, []⟩

mutual

/-- The spans of an expression: its own span, with the trees of its operands, elements, entries,
callee and arguments, object and property name, in source order. -/
def Expr.spanTree : Expr → SpanTree
  | .ident id => id.spanTree
  | .lit sp _ | .this sp => ⟨sp, []⟩
  | .array sp es | .seq sp es => ⟨sp, Expr.spanTreesOfList es⟩
  | .object sp ps => ⟨sp, Property.spanTreesOfList ps⟩
  | .func f => f.spanTree
  | .unary sp _ a | .update sp _ _ a => ⟨sp, [a.spanTree]⟩
  | .binary sp _ l r | .logical sp _ l r | .assign sp _ l r | .index sp l r =>
    ⟨sp, [l.spanTree, r.spanTree]⟩
  | .cond sp t y n => ⟨sp, [t.spanTree, y.spanTree, n.spanTree]⟩
  | .call sp c args | .new sp c args => ⟨sp, c.spanTree :: Expr.spanTreesOfList args⟩
  | .dot sp o name => ⟨sp, [o.spanTree, name.spanTree]⟩

/-- The span trees of expressions, in order. -/
def Expr.spanTreesOfList : List Expr → List SpanTree
  | [] => []
  | e :: es => e.spanTree :: Expr.spanTreesOfList es

/-- The span trees of the entries of an object literal: each entry's span over its value's. -/
def Property.spanTreesOfList : List Property → List SpanTree
  | [] => []
  | .mk sp _ v :: ps => ⟨sp, [v.spanTree]⟩ :: Property.spanTreesOfList ps

/-- The spans of a function: its own span over its name, its parameters, and its body's span
over the body's statements. -/
def Func.spanTree : Func → SpanTree
  | .mk sp name params bodySpan body =>
    ⟨sp, name.toList.map Ident.spanTree ++ params.map Ident.spanTree ++
      [⟨bodySpan, Stmt.spanTreesOfList body⟩]⟩

/-- The span tree of an expression that may be missing. -/
def Expr.spanTreesOfOption : Option Expr → List SpanTree
  | some e => [e.spanTree]
  | none => []

/-- The span trees of declarators: each one's span over its name and initialiser. -/
def Declarator.spanTreesOfList : List Declarator → List SpanTree
  | [] => []
  | .mk sp id init :: ds =>
    ⟨sp, id.spanTree :: Expr.spanTreesOfOption init⟩ :: Declarator.spanTreesOfList ds

/-- The span tree of the first clause of a `for` loop, if it has one. -/
def ForInit.spanTreesOfOption : Option ForInit → List SpanTree
  | some (.vars sp ds) => [⟨sp, Declarator.spanTreesOfList ds⟩]
  | some (.expr e) => [e.spanTree]
  | none => []

/-- The spans of a statement: its own span, with the trees of its parts in source order. -/
def Stmt.spanTree : Stmt → SpanTree
  | .expr sp e => ⟨sp, [e.spanTree]⟩
  | .block sp body => ⟨sp, Stmt.spanTreesOfList body⟩
  | .empty sp | .breakLoop sp | .continueLoop sp => ⟨sp, []⟩
  | .vars sp ds => ⟨sp, Declarator.spanTreesOfList ds⟩
  | .funcDecl f => f.spanTree
  | .ifElse sp t yes no => ⟨sp, t.spanTree :: yes.spanTree :: Stmt.spanTreesOfOption no⟩
  | .whileLoop sp t body => ⟨sp, [t.spanTree, body.spanTree]⟩
  | .forLoop sp init test update body =>
    ⟨sp, ForInit.spanTreesOfOption init ++ Expr.spanTreesOfOption test ++
      Expr.spanTreesOfOption update ++ [body.spanTree]⟩
  | .ret sp arg => ⟨sp, Expr.spanTreesOfOption arg⟩

/-- The span trees of statements, in order. -/
def Stmt.spanTreesOfList : List Stmt → List SpanTree
  | [] => []
  | s :: ss => s.spanTree :: Stmt.spanTreesOfList ss

/-- The span tree of a statement that may be missing. -/
def Stmt.spanTreesOfOption : Option Stmt → List SpanTree
  | some s => [s.spanTree]
  | none => []

end

/-- The spans of a script: the whole text over its statements. -/
def Program.spanTree (prog : Program) : SpanTree := ⟨prog.span, Stmt.spanTreesOfList prog.body⟩

/-! ## Where the builder puts its trees -/

open Peg SpanTree

variable {src : Source}

/-- A settled node from which the builder makes only expressions and statements whose span trees
are nested and lie within the node's bytes. -/
def SpansFrom (src : Source) (n : Node Rule) : Prop :=
  n.Settled scriptGrammar src.chars ∧
    (∀ e, Build.expr src n = some e →
      Placed (src.byte n.start) (src.byte n.stop) [e.spanTree]) ∧
    (∀ s, Build.stmt src n = some s →
      Placed (src.byte n.start) (src.byte n.stop) [s.spanTree])

/-- A node spanning the bytes from `a` to `b`, over trees that lie between them. -/
theorem Placed.over {a b : Nat} {ts : List SpanTree} (h : Placed (src.byte a) (src.byte b) ts) :
    Placed (src.byte a) (src.byte b) [⟨src.span a b, ts⟩] :=
  Placed.node (Nat.le_refl _) (Nat.le_refl _) h

section Children

variable (hsrc : src.Ordered) {p q : Nat} {c : Node Rule} {cs : List (Node Rule)}
  {ts us : List SpanTree}
include hsrc

/-- A leaf over the bytes from `a` to `b`. -/
theorem Placed.leaf {a b : Nat} (hab : a ≤ b) (hb : b ≤ src.chars.size) :
    Placed (src.byte a) (src.byte b) [⟨src.span a b, []⟩] :=
  Placed.over (Placed.nil (hsrc hab hb))

/-- Trees inside the bytes of the first of the children laid from `p` on lie between `p` and
the child's end. -/
theorem Placed.before (hl : Span.Laid p q ((c :: cs).map Node.extent))
    (hq : q ≤ src.chars.size) (h : Placed (src.byte c.start) (src.byte c.stop) ts) :
    Placed (src.byte p) (src.byte c.stop) ts :=
  h.widen (hsrc hl.1 (Nat.le_trans hl.2.1 (Nat.le_trans hl.2.2.le hq))) (Nat.le_refl _)

/-- Trees inside the bytes of the first of the children laid between `p` and `q`, then trees
after that child, lie between `p` and `q`. -/
theorem Placed.cons_child (hl : Span.Laid p q ((c :: cs).map Node.extent))
    (hq : q ≤ src.chars.size) (hc : Placed (src.byte c.start) (src.byte c.stop) ts)
    (hr : Placed (src.byte c.stop) (src.byte q) us) : Placed (src.byte p) (src.byte q) (ts ++ us) :=
  (Placed.before hsrc hl hq hc).append hr

/-- Trees inside the bytes of any of the children laid between `p` and `q` lie between them. -/
theorem Placed.of_child (hl : Span.Laid p q (cs.map Node.extent)) (hq : q ≤ src.chars.size)
    (hc : c ∈ cs) (h : Placed (src.byte c.start) (src.byte c.stop) ts) :
    Placed (src.byte p) (src.byte q) ts := by
  obtain ⟨h₁, h₂, h₃⟩ := hl.mem (List.mem_map_of_mem hc)
  exact h.widen (hsrc h₁ (Nat.le_trans h₂ (Nat.le_trans h₃ hq))) (hsrc h₃ hq)

/-- The name read off any of the children laid between `p` and `q` lies between them. -/
theorem Placed.ident_child (hl : Span.Laid p q (cs.map Node.extent)) (hq : q ≤ src.chars.size)
    (hc : c ∈ cs) : Placed (src.byte p) (src.byte q) [(src.ident c).spanTree] := by
  obtain ⟨-, h₂, h₃⟩ := hl.mem (List.mem_map_of_mem hc)
  exact Placed.of_child hsrc hl hq hc (Placed.leaf hsrc h₂ (Nat.le_trans h₃ hq))

/-- The names read off children laid between `p` and `q` lie between them, in order. -/
theorem Placed.idents : ∀ {cs : List (Node Rule)} {p : Nat},
    Span.Laid p q (cs.map Node.extent) → q ≤ src.chars.size →
      Placed (src.byte p) (src.byte q) (cs.map fun c => (src.ident c).spanTree)
  | [], _, hl, hq => Placed.nil (hsrc hl hq)
  | _ :: _, _, hl, hq =>
    Placed.cons_child hsrc hl hq (Placed.leaf hsrc hl.2.1 (Nat.le_trans hl.2.2.le hq))
      (Placed.idents hl.2.2 hq)

end Children

/-- A prefix operator's node spans from the operator to `stop`, over its operand. -/
theorem Build.applyPrefix?_spanTree {stop : Nat} {op : Node Rule} {arg e : Expr}
    (h : Build.applyPrefix? src stop op arg = some e) :
    e.spanTree = ⟨src.span op.start stop, [arg.spanTree]⟩ := by
  unfold Build.applyPrefix? at h
  split at h
  · cases h
    simp only [Expr.spanTree]
  · obtain ⟨u, -, rfl⟩ := Option.map_eq_some_iff.mp h
    simp only [Expr.spanTree]

/-! ## The builder's lists

One lemma per function of the builder that reads a list of nodes, each by induction on the list:
the nodes lie one after the other between `p` and `q`, and every node of their trees is read by
the builder as `SpansFrom` says. -/

section Lists

variable (hsrc : src.Ordered) {q : Nat}
include hsrc

theorem Build.exprs_placed : ∀ {cs : List (Node Rule)} {es : List Expr} {p : Nat},
    Span.Laid p q (cs.map Node.extent) → q ≤ src.chars.size →
      (∀ c ∈ cs, c.Every (SpansFrom src)) → Build.exprs src cs = some es →
      Placed (src.byte p) (src.byte q) (Expr.spanTreesOfList es)
  | [], es, _, hl, hq, _, h => by
    simp only [Build.exprs, Option.some.injEq] at h
    subst h
    exact Placed.nil (hsrc hl hq)
  | c :: cs, es, _, hl, hq, hcs, h => by
    simp only [Build.exprs] at h
    obtain ⟨e, he, h⟩ := Option.bind_eq_some_iff.mp h
    obtain ⟨es', hes', h⟩ := Option.bind_eq_some_iff.mp h
    simp only [Option.some.injEq] at h
    subst h
    exact Placed.cons_child hsrc hl hq ((hcs c List.mem_cons_self).head.2.1 e he)
      (Build.exprs_placed hl.2.2 hq (fun c' hc' => hcs c' (List.mem_cons_of_mem _ hc')) hes')

/-- A binary chain's links each span from the chain's `start` to the end of their right operand,
which lies after the operator, so after the left operand: the link's span holds both. The
left operand lies between `start` and `p`, where the rest of the chain begins. -/
theorem Build.binaryChain_placed (start : Nat) : ∀ {cs : List (Node Rule)} {left e : Expr}
    {p : Nat}, Span.Laid p q (cs.map Node.extent) → q ≤ src.chars.size →
      (∀ c ∈ cs, c.Every (SpansFrom src)) → Placed (src.byte start) (src.byte p) [left.spanTree] →
      Build.binaryChain src start left cs = some e →
      Placed (src.byte start) (src.byte q) [e.spanTree]
  | [], left, e, _, hl, hq, _, hleft, h => by
    simp only [Build.binaryChain, Option.some.injEq] at h
    subst h
    exact hleft.widen (Nat.le_refl _) (hsrc hl hq)
  | [_], _, _, _, _, _, _, _, h => by simp [Build.binaryChain] at h
  | op :: r :: rest, left, e, _, hl, hq, hcs, hleft, h => by
    simp only [Build.binaryChain] at h
    obtain ⟨o, -, h⟩ := Option.bind_eq_some_iff.mp h
    obtain ⟨right, hright, h⟩ := Option.bind_eq_some_iff.mp h
    have hr : Placed (src.byte _) (src.byte r.stop) [right.spanTree] :=
      Placed.before hsrc hl.of_cons hq ((hcs r (by simp)).head.2.1 right hright)
    have hlink : Placed (src.byte start) (src.byte r.stop)
        [(Expr.binary (src.span start r.stop) o left right).spanTree] := by
      simp only [Expr.spanTree]
      exact Placed.over (hleft.append hr)
    exact Build.binaryChain_placed start hl.2.2.2.2 hq (fun c hc => hcs c (by simp [hc])) hlink h

theorem Build.binary_placed {a : Nat} {cs : List (Node Rule)} {e : Expr}
    (hl : Span.Laid a q (cs.map Node.extent)) (hq : q ≤ src.chars.size)
    (hcs : ∀ c ∈ cs, c.Every (SpansFrom src)) (h : Build.binary src a cs = some e) :
    Placed (src.byte a) (src.byte q) [e.spanTree] := by
  cases cs with
  | nil => simp [Build.binary] at h
  | cons c rest =>
    simp only [Build.binary] at h
    obtain ⟨left, hleft, h⟩ := Option.bind_eq_some_iff.mp h
    exact Build.binaryChain_placed hsrc a hl.2.2 hq (fun c' hc' => hcs c' (List.mem_cons_of_mem _ hc'))
      (Placed.before hsrc hl hq ((hcs c List.mem_cons_self).head.2.1 left hleft)) h

/-- A logical chain's links span like a binary chain's, with no operator nodes between the
operands. -/
theorem Build.logicalChain_placed (start : Nat) (op : LogicalOp) :
    ∀ {cs : List (Node Rule)} {left e : Expr} {p : Nat}, Span.Laid p q (cs.map Node.extent) →
      q ≤ src.chars.size → (∀ c ∈ cs, c.Every (SpansFrom src)) →
      Placed (src.byte start) (src.byte p) [left.spanTree] →
      Build.logicalChain src start op left cs = some e →
      Placed (src.byte start) (src.byte q) [e.spanTree]
  | [], left, e, _, hl, hq, _, hleft, h => by
    simp only [Build.logicalChain, Option.some.injEq] at h
    subst h
    exact hleft.widen (Nat.le_refl _) (hsrc hl hq)
  | r :: rest, left, e, _, hl, hq, hcs, hleft, h => by
    simp only [Build.logicalChain] at h
    obtain ⟨right, hright, h⟩ := Option.bind_eq_some_iff.mp h
    have hr : Placed (src.byte _) (src.byte r.stop) [right.spanTree] :=
      Placed.before hsrc hl hq ((hcs r List.mem_cons_self).head.2.1 right hright)
    have hlink : Placed (src.byte start) (src.byte r.stop)
        [(Expr.logical (src.span start r.stop) op left right).spanTree] := by
      simp only [Expr.spanTree]
      exact Placed.over (hleft.append hr)
    exact Build.logicalChain_placed start op hl.2.2 hq
      (fun c hc => hcs c (List.mem_cons_of_mem _ hc)) hlink h

/-- Stacked prefix operators each span from the operator to the end of the whole unary
expression: each one's operand, the rest of the stack, starts after it. -/
theorem Build.prefixed_placed (stop : Nat) : ∀ {cs : List (Node Rule)} {e : Expr} {p : Nat},
    Span.Laid p stop (cs.map Node.extent) → stop ≤ src.chars.size →
      (∀ c ∈ cs, c.Every (SpansFrom src)) → Build.prefixed src stop cs = some e →
      Placed (src.byte p) (src.byte stop) [e.spanTree]
  | [], _, _, _, _, _, h => by simp [Build.prefixed] at h
  | [arg], e, _, hl, hq, hcs, h => by
    simp only [Build.prefixed] at h
    exact Placed.of_child hsrc hl hq (List.mem_singleton_self _)
      ((hcs arg (List.mem_singleton_self _)).head.2.1 e h)
  | op :: a :: rest, e, _, hl, hq, hcs, h => by
    simp only [Build.prefixed] at h
    obtain ⟨arg, harg, h⟩ := Option.bind_eq_some_iff.mp h
    rw [Build.applyPrefix?_spanTree h]
    have hinner := Build.prefixed_placed stop hl.2.2 hq
      (fun c hc => hcs c (List.mem_cons_of_mem _ hc)) harg
    have hop : op.stop ≤ src.chars.size := Nat.le_trans hl.2.2.le hq
    exact Placed.node (hsrc hl.1 (Nat.le_trans hl.2.1 hop)) (Nat.le_refl _)
      (hinner.widen (hsrc hl.2.1 hop) (Nat.le_refl _))

/-- Each suffix of a member or call chain makes a link spanning from the chain's `start` to the
end of the suffix's node, over the object before it and the arguments, name or key inside the
suffix's node. -/
theorem Build.suffixChain_placed (start : Nat) {cs : List (Node Rule)} :
    ∀ {obj e : Expr} {p : Nat}, Span.Laid p q (cs.map Node.extent) → q ≤ src.chars.size →
      (∀ c ∈ cs, c.Every (SpansFrom src)) → Placed (src.byte start) (src.byte p) [obj.spanTree] →
      Build.suffixChain src start obj cs = some e →
      Placed (src.byte start) (src.byte q) [e.spanTree] := by
  induction cs with
  | nil =>
    intro obj e p hl hq _ hobj h
    simp only [Build.suffixChain, Option.some.injEq] at h
    subst h
    exact hobj.widen (Nat.le_refl _) (hsrc hl hq)
  | cons n rest ih =>
    intro obj e p hl hq hcs hobj h
    have hrest : ∀ c ∈ rest, c.Every (SpansFrom src) :=
      fun c hc => hcs c (List.mem_cons_of_mem _ hc)
    have hn := hcs n List.mem_cons_self
    have hnl := hn.head.1.laid
    have hnq : n.stop ≤ src.chars.size := Nat.le_trans hl.2.2.le hq
    unfold Build.suffixChain at h
    split at h
    · next _ _ b args rest' heq =>
      obtain ⟨rfl, rfl⟩ := List.cons.inj heq
      obtain ⟨vs, hvs, h⟩ := Option.bind_eq_some_iff.mp h
      refine ih hl.2.2 hq hrest ?_ h
      simp only [Expr.spanTree]
      refine Placed.over (hobj.append ?_)
      exact Placed.before hsrc hl hq (Build.exprs_placed hsrc hnl hnq hn.children hvs)
    · next _ _ b k rest' heq =>
      obtain ⟨rfl, rfl⟩ := List.cons.inj heq
      refine ih hl.2.2 hq hrest ?_ h
      simp only [Expr.spanTree]
      refine Placed.over (hobj.append ?_)
      exact Placed.before hsrc hl hq (Placed.ident_child hsrc hnl hnq (List.mem_singleton_self _))
    · next _ _ b k rest' heq =>
      obtain ⟨rfl, rfl⟩ := List.cons.inj heq
      obtain ⟨key, hkey, h⟩ := Option.bind_eq_some_iff.mp h
      refine ih hl.2.2 hq hrest ?_ h
      simp only [Expr.spanTree]
      refine Placed.over (hobj.append ?_)
      refine Placed.before hsrc hl hq (Placed.of_child hsrc hnl hnq (List.mem_singleton_self _) ?_)
      exact (hn.children k (List.mem_singleton_self _)).head.2.1 key hkey
    · next _ heq => cases heq
    · simp at h

theorem Build.suffixed_placed {a : Nat} {cs : List (Node Rule)} {e : Expr}
    (hl : Span.Laid a q (cs.map Node.extent)) (hq : q ≤ src.chars.size)
    (hcs : ∀ c ∈ cs, c.Every (SpansFrom src)) (h : Build.suffixed src a cs = some e) :
    Placed (src.byte a) (src.byte q) [e.spanTree] := by
  cases cs with
  | nil => simp [Build.suffixed] at h
  | cons c rest =>
    simp only [Build.suffixed] at h
    obtain ⟨obj, hobj, h⟩ := Option.bind_eq_some_iff.mp h
    exact Build.suffixChain_placed hsrc a hl.2.2 hq
      (fun c' hc' => hcs c' (List.mem_cons_of_mem _ hc'))
      (Placed.before hsrc hl hq ((hcs c List.mem_cons_self).head.2.1 obj hobj)) h

/-- An entry of an object literal spans its `property_assignment` node, over its value, the
node's second child. -/
theorem Build.props_placed : ∀ {cs : List (Node Rule)} {ps : List Property} {p : Nat},
    Span.Laid p q (cs.map Node.extent) → q ≤ src.chars.size →
      (∀ c ∈ cs, c.Every (SpansFrom src)) → Build.props src cs = some ps →
      Placed (src.byte p) (src.byte q) (Property.spanTreesOfList ps) := by
  intro cs
  induction cs with
  | nil =>
    intro ps p hl hq _ h
    simp only [Build.props, Option.some.injEq] at h
    subst h
    exact Placed.nil (hsrc hl hq)
  | cons n rest ih =>
    intro ps p hl hq hcs h
    unfold Build.props at h
    split at h
    · next _ a b k v rest' heq =>
      obtain ⟨rfl, rfl⟩ := List.cons.inj heq
      have hn := hcs _ List.mem_cons_self
      obtain ⟨key, -, h⟩ := Option.bind_eq_some_iff.mp h
      obtain ⟨value, hvalue, h⟩ := Option.bind_eq_some_iff.mp h
      obtain ⟨ps', hps', h⟩ := Option.bind_eq_some_iff.mp h
      simp only [Option.some.injEq] at h
      subst h
      have hentry : Placed (src.byte a) (src.byte b)
          [⟨src.span a b, [value.spanTree]⟩] :=
        Placed.over
          (Placed.of_child hsrc hn.head.1.laid hn.head.1.stop_le (by simp)
            ((hn.children v (by simp)).head.2.1 value hvalue))
      exact Placed.cons_child hsrc hl hq hentry
        (ih hl.2.2 hq (fun c hc => hcs c (List.mem_cons_of_mem _ hc)) hps')
    · next _ heq => cases heq
    · simp at h

theorem Build.stmts_placed : ∀ {cs : List (Node Rule)} {ss : List Stmt} {p : Nat},
    Span.Laid p q (cs.map Node.extent) → q ≤ src.chars.size →
      (∀ c ∈ cs, c.Every (SpansFrom src)) → Build.stmts src cs = some ss →
      Placed (src.byte p) (src.byte q) (Stmt.spanTreesOfList ss)
  | [], ss, _, hl, hq, _, h => by
    simp only [Build.stmts, Option.some.injEq] at h
    subst h
    exact Placed.nil (hsrc hl hq)
  | c :: cs, ss, _, hl, hq, hcs, h => by
    simp only [Build.stmts] at h
    obtain ⟨s, hs, h⟩ := Option.bind_eq_some_iff.mp h
    obtain ⟨ss', hss', h⟩ := Option.bind_eq_some_iff.mp h
    simp only [Option.some.injEq] at h
    subst h
    exact Placed.cons_child hsrc hl hq ((hcs c List.mem_cons_self).head.2.2 s hs)
      (Build.stmts_placed hl.2.2 hq (fun c' hc' => hcs c' (List.mem_cons_of_mem _ hc')) hss')

/-- A declarator spans its `variable_declaration` node, over its name, the node's first child,
and its initialiser, the second. -/
theorem Build.declarators_placed : ∀ {cs : List (Node Rule)} {ds : List Declarator} {p : Nat},
    Span.Laid p q (cs.map Node.extent) → q ≤ src.chars.size →
      (∀ c ∈ cs, c.Every (SpansFrom src)) → Build.declarators src cs = some ds →
      Placed (src.byte p) (src.byte q) (Declarator.spanTreesOfList ds) := by
  intro cs
  induction cs with
  | nil =>
    intro ds p hl hq _ h
    simp only [Build.declarators, Option.some.injEq] at h
    subst h
    exact Placed.nil (hsrc hl hq)
  | cons n rest ih =>
    intro ds p hl hq hcs h
    unfold Build.declarators at h
    split at h
    · next _ a b ks rest' heq =>
      obtain ⟨rfl, rfl⟩ := List.cons.inj heq
      have hn := hcs _ List.mem_cons_self
      have hkl := hn.head.1.laid
      have hkq := hn.head.1.stop_le
      have hrest := fun c hc => hcs c (List.mem_cons_of_mem _ hc)
      dsimp only at h
      split at h
      · next _ _ i =>
        obtain ⟨_, ⟨⟩, h⟩ := Option.bind_eq_some_iff.mp h
        obtain ⟨ds', hds', h⟩ := Option.bind_eq_some_iff.mp h
        simp only [Option.some.injEq] at h
        subst h
        have hdecl : Placed (src.byte a) (src.byte b)
            [⟨src.span a b, [(src.ident i).spanTree]⟩] :=
          Placed.over (Placed.ident_child hsrc hkl hkq (List.mem_singleton_self _))
        exact Placed.cons_child hsrc hl hq hdecl (ih hl.2.2 hq hrest hds')
      · next _ _ i x =>
        obtain ⟨init, hinit, h⟩ := Option.bind_eq_some_iff.mp h
        obtain ⟨_, ⟨⟩, h⟩ := Option.bind_eq_some_iff.mp h
        obtain ⟨ds', hds', h⟩ := Option.bind_eq_some_iff.mp h
        simp only [Option.some.injEq] at h
        subst h
        have hname : Placed (src.byte i.start) (src.byte i.stop) [(src.ident i).spanTree] :=
          Placed.leaf hsrc hkl.2.1 (Nat.le_trans hkl.2.2.le hkq)
        have hdecl : Placed (src.byte a) (src.byte b)
            [⟨src.span a b, (src.ident i).spanTree :: [init.spanTree]⟩] :=
          Placed.over
            (Placed.cons_child hsrc hkl hkq hname
              (Placed.of_child hsrc hkl.2.2 hkq (List.mem_singleton_self _)
                ((hn.children x (by simp)).head.2.1 init hinit)))
        exact Placed.cons_child hsrc hl hq hdecl (ih hl.2.2 hq hrest hds')
      · simp at h
    · next _ heq => cases heq
    · simp at h

end Lists

end EcmaLite
