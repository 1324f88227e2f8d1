import EcmaLite.Code.Compile

/-!
# What hoisting finds

A body's *statement positions* are its own statements and, inside each of them, the statements
of a block, both branches of an `if` and the body of a `while` or `for` loop; the body of a
function, declared or written as an expression, is none of them. `Stmt.positions` lists them in
source order, a statement before those inside it.

Three walks of the compiler have to agree on these positions: the collector of `var` names, the
collector of function declarations, and the prologue that binds the declarations before the
first statement runs (the statement walk itself emits nothing for a declaration). This module
proves that each of them is the same walk over `Stmt.positions`:

* `Stmt.hoistedList_eq` : the hoisted functions are the declarations among the positions, in
  order, one entry for each;
* `Stmt.collectVarsList_eq` : the `var` names are the names the positions declare, folded with
  `pushUnique`; `foldl_pushUnique` turns that fold into the names in order of first occurrence,
  each once;
* `Emit.hoist_eq` : the prologue binds the hoisted functions one after the other.
-/

namespace EcmaLite

mutual

/-- The statements in statement positions inside `s`, in source order: those of a block, the
branches of an `if`, and the body of a loop. -/
def Stmt.nested : Stmt → List Stmt
  | .block _ body => Stmt.positions body
  | .ifElse _ _ yes no =>
    yes :: yes.nested ++ match no with
      | some n => n :: n.nested
      | none => []
  | .whileLoop _ _ body => body :: body.nested
  | .forLoop _ _ _ _ body => body :: body.nested
  | _ => []

/-- The statements of a body and those in statement positions inside them, in source order. -/
def Stmt.positions : List Stmt → List Stmt
  | [] => []
  | s :: rest => s :: s.nested ++ Stmt.positions rest

end

/-- The function a statement declares, if it is a function declaration. -/
def Stmt.funcDecl? : Stmt → Option Func
  | .funcDecl f => some f
  | _ => none

/-- The declared name of a declarator. -/
def Declarator.name : Declarator → String
  | .mk _ id _ => id.name

/-- The names a statement itself declares with `var`: a `var` statement, or a `for` loop whose
first clause is one. -/
def Stmt.declares : Stmt → List String
  | .vars _ ds => ds.map Declarator.name
  | .forLoop _ (some (.vars _ ds)) _ _ _ => ds.map Declarator.name
  | _ => []

/-! ## Function declarations -/

theorem Stmt.filterMap_funcDecl?_cons {s : Stmt} {l : List Stmt} :
    (s :: l).filterMap Stmt.funcDecl? = s.funcDecl?.toList ++ l.filterMap Stmt.funcDecl? := by
  cases s <;> rfl

mutual

theorem Stmt.hoisted_eq : ∀ s : Stmt,
    s.hoisted = s.funcDecl?.toList ++ s.nested.filterMap Stmt.funcDecl?
  | .funcDecl f => rfl
  | .block _ body => by simp [Stmt.hoisted, Stmt.nested, Stmt.funcDecl?, Stmt.hoistedList_eq body]
  | .ifElse _ _ yes no => by
    have hyes := Stmt.hoisted_eq yes
    cases no with
    | none => simp [Stmt.hoisted, Stmt.nested, Stmt.funcDecl?, Stmt.filterMap_funcDecl?_cons, hyes]
    | some n =>
      simp [Stmt.hoisted, Stmt.nested, Stmt.funcDecl?, Stmt.filterMap_funcDecl?_cons, hyes,
        Stmt.hoisted_eq n]
  | .whileLoop _ _ body => by
    simp [Stmt.hoisted, Stmt.nested, Stmt.funcDecl?, Stmt.filterMap_funcDecl?_cons,
      Stmt.hoisted_eq body]
  | .forLoop _ _ _ _ body => by
    simp [Stmt.hoisted, Stmt.nested, Stmt.funcDecl?, Stmt.filterMap_funcDecl?_cons,
      Stmt.hoisted_eq body]
  | .expr .. | .empty _ | .vars .. | .breakLoop _ | .continueLoop _ | .ret .. => rfl

theorem Stmt.hoistedList_eq : ∀ body : List Stmt,
    Stmt.hoistedList body = (Stmt.positions body).filterMap Stmt.funcDecl?
  | [] => rfl
  | s :: rest => by
    rw [Stmt.hoistedList, Stmt.positions, Stmt.hoisted_eq s, Stmt.hoistedList_eq rest,
      List.filterMap_append, Stmt.filterMap_funcDecl?_cons, List.append_assoc]

end

/-! ## `var` names -/

section Names

variable {acc : List String}

/-- Folding names in with `pushUnique` appends, in order of first occurrence, those not yet
listed. -/
theorem foldl_pushUnique (xs : List String) (acc : List String) :
    xs.foldl pushUnique acc = acc ++ (xs.removeAll acc).eraseDups := by
  induction xs generalizing acc with
  | nil => simp [List.removeAll]
  | cons x xs ih =>
    rw [List.foldl_cons, ih]
    by_cases hx : x ∈ acc
    · -- a name already listed changes nothing, and is dropped by the filter too
      have hdrop : (x :: xs).removeAll acc = xs.removeAll acc := by
        simp [List.removeAll, hx]
      rw [hdrop, pushUnique, if_pos (List.contains_iff_mem.mpr hx)]
    · have hkeep : (x :: xs).removeAll acc = x :: xs.removeAll acc := by
        simp [List.removeAll, hx]
      have hrest : (xs.removeAll acc).filter (fun b => !b == x) = xs.removeAll (acc ++ [x]) := by
        simp only [List.removeAll, List.filter_filter]
        refine List.filter_congr fun a _ => ?_
        by_cases h : a = x <;> simp [h]
      rw [hkeep, List.eraseDups_cons, hrest, pushUnique,
        if_neg (mt List.contains_iff_mem.mp hx), List.append_assoc, List.singleton_append]

/-- Folding names in with `pushUnique` keeps a list free of duplicates. -/
theorem nodup_foldl_pushUnique (xs : List String) (h : acc.Nodup) :
    (xs.foldl pushUnique acc).Nodup := by
  induction xs generalizing acc with
  | nil => exact h
  | cons x xs ih =>
    refine ih ?_
    unfold pushUnique
    split
    · exact h
    · rename_i hx
      refine List.nodup_append.mpr ⟨h, by simp, fun a ha b hb => ?_⟩
      rw [List.mem_singleton.mp hb]
      rintro rfl
      exact hx (List.contains_iff_mem.mpr ha)

theorem Declarator.collectNames_eq (ds : List Declarator) :
    Declarator.collectNames acc ds = (ds.map Declarator.name).foldl pushUnique acc := by
  induction ds generalizing acc with
  | nil => rfl
  | cons d ds ih =>
    obtain ⟨_, id, _⟩ := d
    exact ih

mutual

theorem Stmt.collectVars_eq : ∀ (s : Stmt) (acc : List String),
    s.collectVars acc = (s.declares ++ s.nested.flatMap Stmt.declares).foldl pushUnique acc
  | .vars _ ds, acc => by
    simp [Stmt.collectVars, Stmt.declares, Stmt.nested, Declarator.collectNames_eq]
  | .block _ body, acc => by
    simp [Stmt.collectVars, Stmt.declares, Stmt.nested, Stmt.collectVarsList_eq body]
  | .ifElse _ _ yes no, acc => by
    cases no with
    | none => simp [Stmt.collectVars, Stmt.declares, Stmt.nested, Stmt.collectVars_eq yes]
    | some n =>
      simp [Stmt.collectVars, Stmt.declares, Stmt.nested, Stmt.collectVars_eq yes,
        Stmt.collectVars_eq n]
  | .whileLoop _ _ body, acc => by
    simp [Stmt.collectVars, Stmt.declares, Stmt.nested, Stmt.collectVars_eq body]
  | .forLoop _ init _ _ body, acc => by
    -- the `var` clause of a `for` loop is read before its body
    rcases init with _ | ⟨_, ds⟩ | e
    · simp [Stmt.collectVars, Stmt.declares, Stmt.nested, Stmt.collectVars_eq body]
    · simp [Stmt.collectVars, Stmt.declares, Stmt.nested, Stmt.collectVars_eq body,
        Declarator.collectNames_eq]
    · simp [Stmt.collectVars, Stmt.declares, Stmt.nested, Stmt.collectVars_eq body]
  | .expr .., _ | .empty _, _ | .funcDecl _, _ | .breakLoop _, _ | .continueLoop _, _
  | .ret .., _ => rfl

theorem Stmt.collectVarsList_eq : ∀ (body : List Stmt) (acc : List String),
    Stmt.collectVarsList acc body =
      ((Stmt.positions body).flatMap Stmt.declares).foldl pushUnique acc
  | [], _ => rfl
  | s :: rest, acc => by
    simp [Stmt.collectVarsList, Stmt.positions, Stmt.collectVars_eq s,
      Stmt.collectVarsList_eq rest]

end

end Names

/-! ## The prologue of a body -/

/-- Binds one hoisted declaration: the closure of its compiled code, bound to its name. -/
def Emit.bindDeclaration (f : Func) : Emit Unit := do
  let k ← Emit.func f false
  discard (Emit.emit (.makeClosure k))
  discard (Emit.emit (.bindFunction (← Emit.name f.nameText)))

mutual

theorem Emit.hoistIn_eq : ∀ s : Stmt, Emit.hoistIn s = s.hoisted.forM Emit.bindDeclaration
  | .funcDecl f => by simp [Emit.hoistIn, Stmt.hoisted, Emit.bindDeclaration]
  | .block _ body => by simp [Emit.hoistIn, Stmt.hoisted, Emit.hoist_eq body]
  | .ifElse _ _ yes no => by
    cases no with
    | none => simp [Emit.hoistIn, Stmt.hoisted, Emit.hoistIn_eq yes]
    | some n => simp [Emit.hoistIn, Stmt.hoisted, Emit.hoistIn_eq yes, Emit.hoistIn_eq n]
  | .whileLoop _ _ body => by simp [Emit.hoistIn, Stmt.hoisted, Emit.hoistIn_eq body]
  | .forLoop _ _ _ _ body => by simp [Emit.hoistIn, Stmt.hoisted, Emit.hoistIn_eq body]
  | .expr .. | .empty _ | .vars .. | .breakLoop _ | .continueLoop _ | .ret .. => rfl

theorem Emit.hoist_eq : ∀ body : List Stmt,
    Emit.hoist body = (Stmt.hoistedList body).forM Emit.bindDeclaration
  | [] => rfl
  | s :: rest => by simp [Emit.hoist, Stmt.hoistedList, Emit.hoistIn_eq s, Emit.hoist_eq rest]

end

/-- Hoisting finds exactly the declarations in statement positions. The functions bound before
the first statement are the function declarations among the positions of the body, in source
order and one entry for each; the `var` names are the names the positions declare, in order of
first occurrence and each once; and the prologue binds the hoisted functions one after the
other. -/
theorem hoisting_follows_statement_positions (body : List Stmt) :
    hoistedFuncs body = (Stmt.positions body).filterMap Stmt.funcDecl? ∧
    varNames body = ((Stmt.positions body).flatMap Stmt.declares).eraseDups ∧
    (varNames body).Nodup ∧
    Emit.hoist body = (hoistedFuncs body).forM Emit.bindDeclaration := by
  have hvars : varNames body = ((Stmt.positions body).flatMap Stmt.declares).foldl pushUnique [] :=
    Stmt.collectVarsList_eq body []
  refine ⟨Stmt.hoistedList_eq body, ?_, ?_, Emit.hoist_eq body⟩
  · rw [hvars, foldl_pushUnique]
    simp [List.removeAll, List.filter_eq_self.mpr]
  · rw [hvars]
    exact nodup_foldl_pushUnique _ List.nodup_nil

-- A `var` name declared twice is listed once, and declarations nested in blocks, loops and
-- branches are found in source order.
example :
    let sp : Span := ⟨0, 0⟩
    let v (n : String) : Stmt := .vars sp [.mk sp ⟨sp, n⟩ none]
    let fn (n : String) : Stmt := .funcDecl (.mk sp (some ⟨sp, n⟩) [] sp [])
    let body := [v "a", .block sp [fn "f", v "b"],
      .whileLoop sp (.this sp) (.ifElse sp (.this sp) (v "a") (some (fn "g")))]
    varNames body = ["a", "b"] ∧ (hoistedFuncs body).map Func.nameText = ["f", "g"] := by
  decide

end EcmaLite
