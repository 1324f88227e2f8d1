import EcmaLite.Proofs.PegReads
import EcmaLite.Proofs.PegFuel
import EcmaLite.Syntax.Build

/-!
# Spans laid in order

The spans of a syntax tree are well nested when the children of every node lie inside it one
after the other. This module sets up what the builder's lemmas need to show it:

* `Span.Laid lo hi sps`: the spans lie one after the other between `lo` and `hi`, none ending
  before it starts. Appending, widening and dropping spans keep it.
* The nodes a reading of a parsing expression gives are laid between where the reading starts
  and where it stops (`Peg.Reads.laid`), so the children of a settled node lie inside it in
  order (`Peg.Node.Settled.laid`).
* The byte offset of character `i` of a text is the UTF-8 length of its first `i` characters
  (`Source.byte_ofString`), so it grows with `i` up to the byte length of the whole text
  (`Source.ofString_ordered`).
* `SpanTree` is the shape of a syntax tree's spans. A tree is `Nested` when the children of
  every node are laid inside it; every node of such a tree lies inside the root
  (`SpanTree.Nested.nodes_inside`).
-/

namespace EcmaLite

/-! ## Spans one after the other -/

/-- Spans one after the other between `lo` and `hi`: each starts no earlier than `lo` or than the
one before it stops, none stops before it starts, and the last stops by `hi`. -/
def Span.Laid : Nat → Nat → List Span → Prop
  | lo, hi, [] => lo ≤ hi
  | lo, hi, sp :: rest => lo ≤ sp.start ∧ sp.start ≤ sp.stop ∧ Span.Laid sp.stop hi rest

instance Span.decidableLaid : (lo hi : Nat) → (sps : List Span) → Decidable (Span.Laid lo hi sps)
  | lo, hi, [] => inferInstanceAs (Decidable (lo ≤ hi))
  | lo, hi, sp :: rest =>
    have := Span.decidableLaid sp.stop hi rest
    inferInstanceAs (Decidable (lo ≤ sp.start ∧ sp.start ≤ sp.stop ∧ Span.Laid sp.stop hi rest))

namespace Span.Laid

variable {lo mid hi : Nat} {sp : Span} {xs ys : List Span}

@[simp] theorem nil_iff : Span.Laid lo hi [] ↔ lo ≤ hi := Iff.rfl

@[simp] theorem cons_iff :
    Span.Laid lo hi (sp :: xs) ↔ lo ≤ sp.start ∧ sp.start ≤ sp.stop ∧ Span.Laid sp.stop hi xs :=
  Iff.rfl

theorem le : ∀ {lo : Nat} {xs : List Span}, Span.Laid lo hi xs → lo ≤ hi
  | _, [], h => h
  | _, _ :: _, h => Nat.le_trans h.1 (Nat.le_trans h.2.1 (le h.2.2))

theorem widen_left (hlo : lo ≤ mid) : ∀ {xs : List Span}, Span.Laid mid hi xs → Span.Laid lo hi xs
  | [], h => Nat.le_trans hlo h
  | _ :: _, h => ⟨Nat.le_trans hlo h.1, h.2⟩

theorem widen_right (hhi : mid ≤ hi) :
    ∀ {lo : Nat} {xs : List Span}, Span.Laid lo mid xs → Span.Laid lo hi xs
  | _, [], h => Nat.le_trans h hhi
  | _, _ :: _, h => ⟨h.1, h.2.1, widen_right hhi h.2.2⟩

theorem append : ∀ {lo : Nat} {xs : List Span}, Span.Laid lo mid xs → Span.Laid mid hi ys →
    Span.Laid lo hi (xs ++ ys)
  | _, [], hx, hy => widen_left hx hy
  | _, _ :: _, hx, hy => ⟨hx.1, hx.2.1, append hx.2.2 hy⟩

theorem of_cons (h : Span.Laid lo hi (sp :: xs)) : Span.Laid lo hi xs :=
  widen_left (Nat.le_trans h.1 h.2.1) h.2.2

/-- Dropping spans keeps the rest laid. -/
theorem sublist (h : xs.Sublist ys) : Span.Laid lo hi ys → Span.Laid lo hi xs := by
  induction h generalizing lo with
  | slnil => exact id
  | cons sp _ ih =>
    intro hy
    exact ih hy.of_cons
  | cons_cons sp _ ih =>
    intro hy
    exact ⟨hy.1, hy.2.1, ih hy.2.2⟩

/-- Each of the spans lies between the ends. -/
theorem mem : ∀ {lo : Nat} {xs : List Span}, Span.Laid lo hi xs → sp ∈ xs →
    lo ≤ sp.start ∧ sp.start ≤ sp.stop ∧ sp.stop ≤ hi
  | _, [], _, hsp => absurd hsp List.not_mem_nil
  | _, _ :: _, h, hsp => by
    rcases List.mem_cons.mp hsp with rfl | hsp
    · exact ⟨h.1, h.2.1, h.2.2.le⟩
    · obtain ⟨h₁, h₂, h₃⟩ := mem h.2.2 hsp
      exact ⟨Nat.le_trans h.1 (Nat.le_trans h.2.1 h₁), h₂, h₃⟩

/-- Laid spans are disjoint and in order: each stops before any later one starts. -/
theorem pairwise : ∀ {lo : Nat} {xs : List Span}, Span.Laid lo hi xs →
    xs.Pairwise fun a b => a.stop ≤ b.start
  | _, [], _ => List.Pairwise.nil
  | _, _ :: _, h => List.Pairwise.cons (fun _ hb => (mem h.2.2 hb).1) (pairwise h.2.2)

end Span.Laid

example : Span.Laid 0 9 [⟨0, 3⟩, ⟨3, 3⟩, ⟨5, 9⟩] ∧ ¬ Span.Laid 0 9 [⟨4, 6⟩, ⟨5, 9⟩] := by
  decide

/-! ## Nodes of a reading lie in order -/

namespace Peg

variable {ρ : Type}

/-- The character positions a node spans. -/
def Node.extent (n : Node ρ) : Span := ⟨n.start, n.stop⟩

@[simp] theorem Node.extent_start (n : Node ρ) : n.extent.start = n.start := rfl

@[simp] theorem Node.extent_stop (n : Node ρ) : n.extent.stop = n.stop := rfl

/-- The nodes a reading gives lie one after the other between where it starts and where it
stops. By induction on the reading: a sequence or a repetition lays the nodes of its parts one
after the other, and a rule that makes a node lays that node over the whole reading. -/
theorem Reads.laid {g : Grammar ρ} {src : Array Char} {m : Mode} {e : Peg.Expr ρ} {p q : Nat}
    {ns : List (Node ρ)} (h : Reads g src m e p q ns) : Span.Laid p q (ns.map Node.extent) := by
  induction h with
  | str | range | any | start | finish | blankAtomic | optNone | manyNil | ahead | notAhead =>
    simp
  | blank _ _ ih | altLeft _ ih | altRight _ ih | optSome _ ih | manyStop _ ih => exact ih
  | seq _ _ ihx ihy | manyCons _ _ ihx ihy =>
    rw [List.map_append]
    exact ihx.append ihy
  | rule _ ih =>
    split
    · simpa [Node.extent] using ih.le
    · exact ih

/-- The children of a settled node lie inside it, one after the other. -/
theorem Node.Settled.laid {g : Grammar ρ} {src : Array Char} {nd : Node ρ}
    (h : nd.Settled g src) : Span.Laid nd.start nd.stop (nd.children.map Node.extent) := by
  obtain ⟨-, -, -, k, hb⟩ := h
  exact (reads_of_run (hb.run_eq (Nat.le_refl k) Attempts.empty)).laid

end Peg

/-! ## Byte offsets of a text -/

namespace Source

/-- Byte offsets that grow with the character position, up to the end of the characters. -/
def Ordered (src : Source) : Prop :=
  ∀ ⦃i j : Nat⦄, i ≤ j → j ≤ src.chars.size → src.byte i ≤ src.byte j

/-- The offsets the fold of `ofString` lays down after `acc`, from running total `t` on. -/
theorem foldl_offsets (cs : List Char) (acc : Array Nat) (t : Nat) :
    (cs.foldl (fun (acc : Array Nat × Nat) c => (acc.1.push acc.2, acc.2 + c.utf8Size))
      (acc, t)).1.toList =
      acc.toList ++ (List.range cs.length).map fun i =>
        t + (String.ofList (cs.take i)).utf8ByteSize := by
  induction cs generalizing acc t with
  | nil => simp
  | cons c cs ih =>
    rw [List.foldl_cons, ih, Array.toList_push, List.length_cons, List.range_succ_eq_map]
    simp only [List.map_cons, List.take_zero, String.ofList_nil, String.utf8ByteSize_empty,
      Nat.add_zero, List.map_map, Function.comp_def, List.take_succ_cons, String.ofList_cons,
      String.utf8ByteSize_append, String.utf8ByteSize_singleton, List.append_assoc,
      List.singleton_append]
    congr 2
    exact List.map_congr_left fun i _ => by omega

/-- The running total of the fold of `ofString`. -/
theorem foldl_total (cs : List Char) (acc : Array Nat) (t : Nat) :
    (cs.foldl (fun (acc : Array Nat × Nat) c => (acc.1.push acc.2, acc.2 + c.utf8Size))
      (acc, t)).2 = t + (String.ofList cs).utf8ByteSize := by
  induction cs generalizing acc t with
  | nil => simp
  | cons c cs ih =>
    rw [List.foldl_cons, ih, String.ofList_cons, String.utf8ByteSize_append,
      String.utf8ByteSize_singleton]
    omega

/-- The offsets of a text: the UTF-8 length of each prefix, the whole text's last. -/
theorem offsets_ofString (s : String) :
    (ofString s).offsets.toList =
      (List.range (s.toList.length + 1)).map fun i =>
        (String.ofList (s.toList.take i)).utf8ByteSize := by
  simp only [ofString, Array.toList_push, foldl_offsets, foldl_total, List.range_succ,
    List.map_append, List.take_length, Nat.zero_add, List.map_cons, List.map_nil]
  rfl

@[simp] theorem size_chars_ofString (s : String) : (ofString s).chars.size = s.toList.length :=
  List.size_toArray

/-- The byte offset of character `i` of a text is the UTF-8 length of the characters before
it. -/
theorem byte_ofString {s : String} {i : Nat} (hi : i ≤ s.toList.length) :
    (ofString s).byte i = (String.ofList (s.toList.take i)).utf8ByteSize := by
  rw [byte, ← Array.getElem?_toList, offsets_ofString, List.getElem?_map,
    List.getElem?_range (Nat.lt_succ_of_le hi)]
  rfl

/-- The offset after the last character is the byte length of the text. -/
theorem byte_size_ofString (s : String) :
    (ofString s).byte (ofString s).chars.size = s.utf8ByteSize := by
  rw [size_chars_ofString, byte_ofString (Nat.le_refl _), List.take_length, String.ofList_toList]

/-- The byte offsets of a text grow with the position. -/
theorem ofString_ordered (s : String) : (ofString s).Ordered := by
  intro i j hij hj
  rw [size_chars_ofString] at hj
  rw [byte_ofString (Nat.le_trans hij hj), byte_ofString hj]
  -- the first `j` characters are the first `i` and some more
  have hsplit := (List.take_append_drop i (s.toList.take j)).symm
  rw [List.take_take, Nat.min_eq_left hij] at hsplit
  rw [hsplit, String.ofList_append, String.utf8ByteSize_append]
  exact Nat.le_add_right _ _

end Source

/-! ## Trees of spans -/

/-- The spans of a syntax tree: the span of its root, with the trees of the root's children in
order. -/
structure SpanTree where
  span : Span
  children : List SpanTree
  deriving Inhabited

namespace SpanTree

mutual

/-- The nodes of a tree, the root first and then the nodes below each child in turn. -/
def nodes : SpanTree → List SpanTree
  | ⟨sp, cs⟩ => ⟨sp, cs⟩ :: nodesOfList cs

/-- The nodes of the trees, one tree after the other. -/
def nodesOfList : List SpanTree → List SpanTree
  | [] => []
  | t :: ts => t.nodes ++ nodesOfList ts

end

theorem mem_nodesOfList {u : SpanTree} :
    ∀ {ts : List SpanTree}, u ∈ nodesOfList ts ↔ ∃ t ∈ ts, u ∈ t.nodes
  | [] => by simp [nodesOfList]
  | t :: ts => by simp [nodesOfList, mem_nodesOfList]

theorem mem_nodes {u t : SpanTree} : u ∈ t.nodes ↔ u = t ∨ ∃ c ∈ t.children, u ∈ c.nodes := by
  obtain ⟨sp, cs⟩ := t
  simp [nodes, mem_nodesOfList]

/-- A tree whose every node has its children laid inside it, one after the other. -/
inductive Nested : SpanTree → Prop
  | intro {t : SpanTree} : Span.Laid t.span.start t.span.stop (t.children.map span) →
      (∀ c ∈ t.children, Nested c) → Nested t

theorem Nested.laid {t : SpanTree} (h : t.Nested) :
    Span.Laid t.span.start t.span.stop (t.children.map span) := by
  cases h with
  | intro hl _ => exact hl

theorem Nested.children {t : SpanTree} (h : t.Nested) : ∀ c ∈ t.children, c.Nested := by
  cases h with
  | intro _ hcs => exact hcs

/-- Every node of a nested tree is nested and lies inside the root. By induction on the nesting:
a node below a child lies inside the child, which the root's children being laid puts inside the
root. -/
theorem Nested.nodes_inside {t : SpanTree} (h : t.Nested) :
    ∀ u ∈ t.nodes, u.Nested ∧ t.span.start ≤ u.span.start ∧ u.span.stop ≤ t.span.stop := by
  induction h with
  | @intro t hl hcs ih =>
    intro u hu
    rcases mem_nodes.mp hu with rfl | ⟨c, hc, hu⟩
    · exact ⟨.intro hl hcs, Nat.le_refl _, Nat.le_refl _⟩
    · obtain ⟨hn, hstart, hstop⟩ := ih c hc u hu
      obtain ⟨hc₁, -, hc₂⟩ := hl.mem (List.mem_map_of_mem hc)
      exact ⟨hn, Nat.le_trans hc₁ hstart, Nat.le_trans hstop hc₂⟩

/-- Nested trees laid one after the other between `lo` and `hi`. -/
def Placed (lo hi : Nat) (ts : List SpanTree) : Prop :=
  Span.Laid lo hi (ts.map span) ∧ ∀ t ∈ ts, t.Nested

namespace Placed

variable {lo mid hi : Nat} {ts us : List SpanTree}

theorem nil (h : lo ≤ hi) : Placed lo hi [] := ⟨h, fun _ ht => absurd ht List.not_mem_nil⟩

theorem le (h : Placed lo hi ts) : lo ≤ hi := h.1.le

theorem append (ht : Placed lo mid ts) (hu : Placed mid hi us) : Placed lo hi (ts ++ us) := by
  refine ⟨?_, ?_⟩
  · rw [List.map_append]
    exact ht.1.append hu.1
  · intro t hmem
    rcases List.mem_append.mp hmem with h | h
    · exact ht.2 t h
    · exact hu.2 t h

theorem sublist (h : Placed lo hi ts) (hs : us.Sublist ts) : Placed lo hi us :=
  ⟨h.1.sublist (hs.map span), fun t ht => h.2 t (hs.subset ht)⟩

theorem widen {lo' hi' : Nat} (hlo : lo' ≤ lo) (hhi : hi ≤ hi') (h : Placed lo hi ts) :
    Placed lo' hi' ts :=
  ⟨(h.1.widen_left hlo).widen_right hhi, h.2⟩

/-- A node whose children are placed inside its span is placed where its span lies. -/
theorem node {sp : Span} {cs : List SpanTree} (hlo : lo ≤ sp.start) (hhi : sp.stop ≤ hi)
    (hcs : Placed sp.start sp.stop cs) : Placed lo hi [⟨sp, cs⟩] := by
  refine ⟨⟨hlo, hcs.le, hhi⟩, ?_⟩
  simp only [List.mem_singleton, forall_eq]
  exact .intro hcs.1 hcs.2

/-- A tree placed alone is nested, and its root lies between the ends. -/
theorem single {t : SpanTree} (h : Placed lo hi [t]) :
    t.Nested ∧ lo ≤ t.span.start ∧ t.span.stop ≤ hi := by
  obtain ⟨⟨h₁, -, h₂⟩, hn⟩ := h
  exact ⟨hn t (List.mem_singleton_self _), h₁, h₂⟩

end Placed

end SpanTree

end EcmaLite
