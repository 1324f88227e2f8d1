/-!
# Parsing expression grammars with furthest-failure reports

A grammar is data: every rule has a body (`Expr`) and a kind that says whether the rule is
*visible* (it makes a node of the parse tree and is named in failure reports) and whether its
body is *atomic* (no blanks are skipped inside it). Running an expression is the usual
ordered-choice, backtracking reading of a PEG.

Beside the reading, a run keeps `Attempts`: the furthest position at which visible rules were
tried and failed, and which ones. A failed parse reports that position and those rules, so the
report names what could have continued the longest readable prefix. The bookkeeping is:

* a visible rule is recorded when it fails (under a negative lookahead: when it succeeds) at a
  position no nearer than the furthest one so far; a record at a further position replaces all
  records before it;
* when the rules tried inside it left exactly one new record at its start, that record stands for
  the rule, which is not added; otherwise the inner records at its start give way to the rule;
* nothing is recorded inside an atomic body.

The run is total: it takes fuel, spent one unit per nested step, and a run out of fuel fails.
`parse` gives fuel proportional to the input, more than any run of a grammar without left
recursion can use.
-/

namespace EcmaLite.Peg

/-- Parsing expressions over rules `ρ`. Sequencing is plain: where a grammar allows blanks
between the items of a sequence or a repetition, its expression says so with `blank`
(`Expr.andThen`, `Expr.star` write them the usual way). -/
inductive Expr (ρ : Type) where
  /-- Exactly these characters. -/
  | str (s : List Char)
  /-- One character between two bounds, both included. -/
  | range (lo hi : Char)
  /-- Any one character. -/
  | any
  /-- Succeeds, reading nothing, at the start of the input. -/
  | start
  /-- Succeeds, reading nothing, at the end of the input. -/
  | finish
  /-- A call of a rule. -/
  | rule (r : ρ)
  /-- The first, then the second. -/
  | seq (a b : Expr ρ)
  /-- The first alternative that succeeds. -/
  | alt (a b : Expr ρ)
  /-- The expression, or nothing. -/
  | opt (a : Expr ρ)
  /-- The expression as often as it succeeds, possibly never. -/
  | many (a : Expr ρ)
  /-- Succeeds, reading nothing, where the expression succeeds. -/
  | ahead (a : Expr ρ)
  /-- Succeeds, reading nothing, where the expression fails. -/
  | notAhead (a : Expr ρ)
  /-- The grammar's blanks and comments; reads nothing inside an atomic body. -/
  | blank
  deriving Inhabited

namespace Expr

variable {ρ : Type}

/-- `a ~ b`: blanks may stand between the two. -/
def andThen (a b : Expr ρ) : Expr ρ := .seq a (.seq .blank b)

/-- `a*`: blanks may stand between two repetitions, never after the last one. -/
def star (a : Expr ρ) : Expr ρ := .opt (.seq a (.many (.seq .blank a)))

/-- `a+`: one, then `a*`; the blanks after the first are read even when no second follows. -/
def plus (a : Expr ρ) : Expr ρ := a.andThen a.star

/-- The items one after the other, blanks allowed between them. -/
def chain : List (Expr ρ) → Expr ρ
  | [] => .str []
  | [a] => a
  | a :: rest => a.andThen (chain rest)

/-- The first of the alternatives that succeeds. -/
def oneOf : List (Expr ρ) → Expr ρ
  | [] => .notAhead (.str [])
  | [a] => a
  | a :: rest => .alt a (oneOf rest)

/-- The literal text. -/
def lit (s : String) : Expr ρ := .str s.toList

/-- The first of the literal texts that matches. -/
def lits (ss : List String) : Expr ρ := oneOf (ss.map lit)

end Expr

/-- How a rule takes part in the tree and in failure reports. -/
structure RuleKind where
  /-- The rule makes a node and is named in failure reports. -/
  visible : Bool
  /-- No blanks are skipped inside the rule's body. -/
  atomic : Bool
  deriving Inhabited

/-- A grammar: the body and kind of each rule, the blanks skipped between items outside atomic
bodies, and the order in which failure reports list rules. -/
structure Grammar (ρ : Type) where
  body : ρ → Expr ρ
  kind : ρ → RuleKind
  blank : Expr ρ
  rank : ρ → Nat

/-- What a lookahead does to the rules run under it. -/
inductive Look where
  /-- Not inside a lookahead: visible rules make nodes. -/
  | none
  /-- Inside a positive lookahead (or a negative one inside a negative one). -/
  | positive
  /-- Inside a negative lookahead: successes, not failures, are recorded. -/
  | negative
  deriving DecidableEq, Inhabited

/-- The mode of an expression inside `&`. -/
def Look.ahead : Look → Look
  | .negative => .negative
  | _ => .positive

/-- The mode of an expression inside `!`. -/
def Look.notAhead : Look → Look
  | .negative => .positive
  | _ => .negative

/-- The circumstances of a run: the lookahead mode and whether the body is atomic. -/
structure Mode where
  look : Look
  atomic : Bool
  deriving Inhabited

/-- A node of the parse tree: a visible rule and the span it read, with the nodes read inside. -/
structure Node (ρ : Type) where
  rule : ρ
  start : Nat
  stop : Nat
  children : List (Node ρ)
  deriving Inhabited

/-- The furthest position of a recorded attempt, the rules recorded there when they failed, and
those recorded when they succeeded under a negative lookahead, in the order of the records. -/
structure Attempts (ρ : Type) where
  pos : Nat
  expected : Array ρ
  unexpected : Array ρ
  deriving Inhabited

namespace Attempts

variable {ρ : Type}

/-- No attempt yet. -/
def empty : Attempts ρ := ⟨0, #[], #[]⟩

/-- The number of records at position `p`. -/
def countAt (t : Attempts ρ) (p : Nat) : Nat :=
  if t.pos = p then t.expected.size + t.unexpected.size else 0

/-- Records rule `r`, tried at `p`. Before the try there were `before` records at `p`, and the
lists had lengths `ne` and `nu`. -/
def record (t : Attempts ρ) (m : Mode) (r : ρ) (p ne nu before : Nat) : Attempts ρ :=
  if m.atomic then t
  else
    let now := t.countAt p
    if before < now ∧ now - before = 1 then t
    else
      let t := if p = t.pos then ⟨t.pos, t.expected.extract 0 ne, t.unexpected.extract 0 nu⟩ else t
      let t := if t.pos < p then ⟨p, #[], #[]⟩ else t
      if p = t.pos then
        if m.look = .negative then { t with unexpected := t.unexpected.push r }
        else { t with expected := t.expected.push r }
      else t

end Attempts

/-- The result of a run: the attempts, and on success the position reached with the nodes read. -/
abbrev Outcome (ρ : Type) := Attempts ρ × Option (Nat × List (Node ρ))

/-- Whether the characters `s` stand in `src` from position `p` on. -/
def matchAt (src : Array Char) : List Char → Nat → Bool
  | [], _ => true
  | c :: rest, p => src[p]? == some c && matchAt src rest (p + 1)

/-- Runs `e` on `src` from position `p`, with `fuel` nested steps at most. -/
def run {ρ : Type} (g : Grammar ρ) (src : Array Char) :
    (fuel : Nat) → Mode → Expr ρ → Nat → Attempts ρ → Outcome ρ
  | 0, _, _, _, t => (t, none)
  | n + 1, m, e, p, t =>
    match e with
    | .str s => (t, if matchAt src s p then some (p + s.length, []) else none)
    | .range lo hi =>
      match src[p]? with
      | some c => (t, if lo ≤ c ∧ c ≤ hi then some (p + 1, []) else none)
      | none => (t, none)
    | .any => (t, if p < src.size then some (p + 1, []) else none)
    | .start => (t, if p = 0 then some (p, []) else none)
    | .finish => (t, if p = src.size then some (p, []) else none)
    | .blank => if m.atomic then (t, some (p, [])) else run g src n m g.blank p t
    | .seq a b =>
      match run g src n m a p t with
      | (t, some (q, xs)) =>
        match run g src n m b q t with
        | (t, some (q', ys)) => (t, some (q', xs ++ ys))
        | (t, none) => (t, none)
      | (t, none) => (t, none)
    | .alt a b =>
      match run g src n m a p t with
      | (t, none) => run g src n m b p t
      | done => done
    | .opt a =>
      match run g src n m a p t with
      | (t, none) => (t, some (p, []))
      | done => done
    | .many a =>
      match run g src n m a p t with
      | (t, none) => (t, some (p, []))
      | (t, some (q, xs)) =>
        if p < q then
          match run g src n m (.many a) q t with
          | (t, some (q', ys)) => (t, some (q', xs ++ ys))
          | (t, none) => (t, none)
        else (t, some (q, xs))
    | .ahead a =>
      match run g src n { m with look := m.look.ahead } a p t with
      | (t, r) => (t, r.map fun _ => (p, []))
    | .notAhead a =>
      match run g src n { m with look := m.look.notAhead } a p t with
      | (t, some _) => (t, none)
      | (t, none) => (t, some (p, []))
    | .rule r =>
      let k := g.kind r
      let inner : Mode := { m with atomic := m.atomic || k.atomic }
      if k.visible then
        let ne := if p = t.pos then t.expected.size else 0
        let nu := if p = t.pos then t.unexpected.size else 0
        let before := t.countAt p
        match run g src n inner (g.body r) p t with
        | (t, some (q, xs)) =>
          let t := if m.look = .negative then t.record m r p ne nu before else t
          let nodes := if m.look = .none ∧ m.atomic = false then [⟨r, p, q, xs⟩] else xs
          (t, some (q, nodes))
        | (t, none) => (if m.look = .negative then t else t.record m r p ne nu before, none)
      else run g src n inner (g.body r) p t

-- A run out of fuel fails at once; tagging the equation also settles `run`'s equations here,
-- before any proof asks for them.
attribute [simp] run.eq_1

/-- A failed parse: the furthest position reached by a recorded attempt and the rules expected
there, in the grammar's order, each once. -/
structure Failure (ρ : Type) where
  pos : Nat
  expected : List ρ

/-- Fuel for a run over `size` characters: room for every rule nested in every other at each
position, more than a grammar without left recursion can use. -/
def fuelFor (size : Nat) : Nat := (size + 1) * 8192

/-- Parses all of `src` from rule `start`: the nodes read, or the failure report. -/
def parse {ρ : Type} [BEq ρ] (g : Grammar ρ) (start : ρ) (src : Array Char) :
    Except (Failure ρ) (List (Node ρ)) :=
  match run g src (fuelFor src.size) ⟨.none, false⟩ (.rule start) 0 Attempts.empty with
  | (_, some (_, nodes)) => .ok nodes
  | (t, none) =>
    .error ⟨t.pos, (t.expected.toList.mergeSort fun a b => g.rank a ≤ g.rank b).eraseDups⟩

/-- Line and column, both from 1, of position `p` of `src`: a line ends at a line feed or a
carriage return followed by a line feed, and each other character is one column. -/
def lineColumn (src : Array Char) (p : Nat) : Nat × Nat :=
  go (src.toList.take p) 1 1
where
  go : List Char → Nat → Nat → Nat × Nat
    | [], line, col => (line, col)
    | '\r' :: '\n' :: rest, line, _ => go rest (line + 1) 1
    | '\n' :: rest, line, _ => go rest (line + 1) 1
    | _ :: rest, line, col => go rest line (col + 1)

end EcmaLite.Peg
