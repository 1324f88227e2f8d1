import EcmaLite.Fault
import EcmaLite.Syntax.Hoist

/-!
# The flaws of a script

What makes compilation fail, read off the syntax alone: an assignment whose left side is no
variable or member, an update (`++`, `--`) of something that is no variable or member, and a
`break` or `continue` that stands in no loop body of its own function body. `Program.flaws`
lists them everywhere in a script: in every function body, reached or not, declared or
written as an expression.

Each flaw is the fault compilation reports for it, and each is one of the four faults of
`Fault.IsFlaw`. A function declaration is compiled where it is hoisted to, not where it stands;
`Stmt.mem_flaws_of_mem_hoistedFlaws` says that this moves no flaw out of the statement that
holds the declaration.
-/

namespace EcmaLite

/-- A variable or a member, `obj.name` or `obj[key]`: what an assignment or an update can
change. -/
def Expr.isReference : Expr → Bool
  | .ident _ | .dot .. | .index .. => true
  | _ => false

mutual

/-- The flaws of an expression in source order, each as the fault compilation reports for it:
assignments and updates of something that is no reference, and the flaws of the function
literals inside. -/
def Expr.flaws : Expr → List Fault
  | .ident _ | .lit .. | .this _ => []
  | .array _ es | .seq _ es => Expr.flawsOfList es
  | .object _ ps => Property.flawsOfList ps
  | .func f => f.flaws
  | .unary _ _ a | .dot _ a _ => a.flaws
  | .update _ _ isPrefix a =>
    (if a.isReference then [] else [.badUpdateTarget isPrefix]) ++ a.flaws
  | .binary _ _ l r | .logical _ _ l r | .index _ l r => l.flaws ++ r.flaws
  | .assign _ _ t v => (if t.isReference then [] else [.badAssignTarget]) ++ t.flaws ++ v.flaws
  | .cond _ t y n => t.flaws ++ y.flaws ++ n.flaws
  | .call _ c args | .new _ c args => c.flaws ++ Expr.flawsOfList args

/-- The flaws of expressions, in order. -/
def Expr.flawsOfList : List Expr → List Fault
  | [] => []
  | e :: es => e.flaws ++ Expr.flawsOfList es

/-- The flaws of the values of an object literal. -/
def Property.flawsOfList : List Property → List Fault
  | [] => []
  | .mk _ _ v :: ps => v.flaws ++ Property.flawsOfList ps

/-- The flaws of a function body, whose statements stand outside every loop. -/
def Func.flaws : Func → List Fault
  | .mk _ _ _ _ body => Stmt.flawsOfList false body

/-- The flaws of an expression that may be missing. -/
def Expr.flawsOfOption : Option Expr → List Fault
  | some e => e.flaws
  | none => []

/-- The flaws of the initialisers of declarators. -/
def Declarator.flawsOfList : List Declarator → List Fault
  | [] => []
  | .mk _ _ init :: ds => Expr.flawsOfOption init ++ Declarator.flawsOfList ds

/-- The flaws of the initialiser of a `for` loop. -/
def ForInit.flawsOfOption : Option ForInit → List Fault
  | some (.vars _ ds) => Declarator.flawsOfList ds
  | some (.expr e) => e.flaws
  | none => []

/-- The flaws of a statement, `inLoop` when it stands in the body of a loop of its function
body: besides those of its expressions and of the function declarations inside, a `break` or
`continue` outside every loop. -/
def Stmt.flaws (inLoop : Bool) : Stmt → List Fault
  | .expr _ e => e.flaws
  | .block _ body => Stmt.flawsOfList inLoop body
  | .empty _ => []
  | .vars _ ds => Declarator.flawsOfList ds
  | .funcDecl f => f.flaws
  | .ifElse _ t yes no => t.flaws ++ yes.flaws inLoop ++ Stmt.flawsOfOption inLoop no
  | .whileLoop _ t body => t.flaws ++ body.flaws true
  | .forLoop _ init test update body =>
    ForInit.flawsOfOption init ++ Expr.flawsOfOption test ++ Expr.flawsOfOption update ++
      body.flaws true
  | .breakLoop _ => if inLoop then [] else [.strayBreak]
  | .continueLoop _ => if inLoop then [] else [.strayContinue]
  | .ret _ arg => Expr.flawsOfOption arg

/-- The flaws of the `else` branch of an `if`, if there is one. -/
def Stmt.flawsOfOption (inLoop : Bool) : Option Stmt → List Fault
  | some s => s.flaws inLoop
  | none => []

/-- The flaws of statements, in order. -/
def Stmt.flawsOfList (inLoop : Bool) : List Stmt → List Fault
  | [] => []
  | s :: rest => s.flaws inLoop ++ Stmt.flawsOfList inLoop rest

end

/-- The flaws of a script: those of its statements, outside every loop. -/
def Program.flaws (p : Program) : List Fault := Stmt.flawsOfList false p.body

/-- A loop around a function is no loop of its body. -/
example : (Program.mk default [.whileLoop default (.this default)
    (.expr default (.func (.mk default none [] default [.breakLoop default])))]).flaws =
    [.strayBreak] := rfl


/-- The flaws of the function declarations hoisted out of a statement. -/
def Stmt.hoistedFlaws (s : Stmt) : List Fault := s.hoisted.flatMap Func.flaws

/-- The flaws of the function declarations hoisted out of statements. -/
def Stmt.hoistedFlawsOfList (ss : List Stmt) : List Fault := (Stmt.hoistedList ss).flatMap Func.flaws

mutual

/-- A flaw of a declaration hoisted out of a statement is a flaw of the statement. -/
theorem Stmt.mem_flaws_of_mem_hoistedFlaws : ∀ (s : Stmt) (b : Bool) (f : Fault),
    f ∈ s.hoistedFlaws → f ∈ s.flaws b
  | .funcDecl g, b, f, hf => by simpa [Stmt.hoistedFlaws, Stmt.hoisted, Stmt.flaws] using hf
  | .block _ body, b, f, hf => by
    simp only [Stmt.hoistedFlaws, Stmt.hoisted] at hf
    exact Stmt.mem_flawsOfList_of_mem_hoistedFlaws body b f hf
  | .ifElse _ t yes none, b, f, hf => by
    simp only [Stmt.hoistedFlaws, Stmt.hoisted, List.append_nil] at hf
    simp only [Stmt.flaws, List.mem_append]
    exact .inl (.inr (Stmt.mem_flaws_of_mem_hoistedFlaws yes b f hf))
  | .ifElse _ t yes (some no), b, f, hf => by
    simp only [Stmt.hoistedFlaws, Stmt.hoisted, List.flatMap_append, List.mem_append] at hf
    simp only [Stmt.flaws, Stmt.flawsOfOption, List.mem_append]
    rcases hf with hf | hf
    · exact .inl (.inr (Stmt.mem_flaws_of_mem_hoistedFlaws yes b f hf))
    · exact .inr (Stmt.mem_flaws_of_mem_hoistedFlaws no b f hf)
  | .whileLoop _ t body, b, f, hf => by
    simp only [Stmt.hoistedFlaws, Stmt.hoisted] at hf
    simp only [Stmt.flaws, List.mem_append]
    exact .inr (Stmt.mem_flaws_of_mem_hoistedFlaws body true f hf)
  | .forLoop _ init test update body, b, f, hf => by
    simp only [Stmt.hoistedFlaws, Stmt.hoisted] at hf
    simp only [Stmt.flaws, List.mem_append]
    exact .inr (Stmt.mem_flaws_of_mem_hoistedFlaws body true f hf)
  | .expr .., _, _, hf | .empty _, _, _, hf | .vars .., _, _, hf | .breakLoop _, _, _, hf
  | .continueLoop _, _, _, hf | .ret .., _, _, hf => by
    simp [Stmt.hoistedFlaws, Stmt.hoisted] at hf

theorem Stmt.mem_flawsOfList_of_mem_hoistedFlaws : ∀ (ss : List Stmt) (b : Bool) (f : Fault),
    f ∈ Stmt.hoistedFlawsOfList ss → f ∈ Stmt.flawsOfList b ss
  | [], _, _, hf => by simp [Stmt.hoistedFlawsOfList, Stmt.hoistedList] at hf
  | s :: rest, b, f, hf => by
    simp only [Stmt.hoistedFlawsOfList, Stmt.hoistedList, List.flatMap_append,
      List.mem_append] at hf
    simp only [Stmt.flawsOfList, List.mem_append]
    rcases hf with hf | hf
    · exact .inl (Stmt.mem_flaws_of_mem_hoistedFlaws s b f hf)
    · exact .inr (Stmt.mem_flawsOfList_of_mem_hoistedFlaws rest b f hf)

end

/-- The faults compilation stops with: an assignment or an update of something that is no
reference, and a `break` or `continue` outside every loop of its function body. -/
inductive Fault.IsFlaw : Fault → Prop
  | badAssignTarget : Fault.IsFlaw .badAssignTarget
  | badUpdateTarget (isPrefix : Bool) : Fault.IsFlaw (.badUpdateTarget isPrefix)
  | strayBreak : Fault.IsFlaw .strayBreak
  | strayContinue : Fault.IsFlaw .strayContinue

attribute [simp] Fault.IsFlaw.badAssignTarget Fault.IsFlaw.badUpdateTarget Fault.IsFlaw.strayBreak
  Fault.IsFlaw.strayContinue

section IsFlaw

open List (forall_mem_append)

mutual

theorem Expr.isFlaw_of_mem_flaws : ∀ e : Expr, ∀ f ∈ e.flaws, f.IsFlaw
  | .ident _ | .lit .. | .this _ => by simp [Expr.flaws]
  | .array _ es | .seq _ es => Expr.isFlaw_of_mem_flawsOfList es
  | .object _ ps => Property.isFlaw_of_mem_flawsOfList ps
  | .func f => Func.isFlaw_of_mem_flaws f
  | .unary _ _ a | .dot _ a _ => Expr.isFlaw_of_mem_flaws a
  | .update _ _ isPrefix a => by
    refine forall_mem_append.mpr ⟨?_, Expr.isFlaw_of_mem_flaws a⟩
    split <;> simp
  | .binary _ _ l r | .logical _ _ l r | .index _ l r =>
    forall_mem_append.mpr ⟨Expr.isFlaw_of_mem_flaws l, Expr.isFlaw_of_mem_flaws r⟩
  | .assign _ _ t v => by
    refine forall_mem_append.mpr ⟨forall_mem_append.mpr ⟨?_, Expr.isFlaw_of_mem_flaws t⟩,
      Expr.isFlaw_of_mem_flaws v⟩
    split <;> simp
  | .cond _ t y n => forall_mem_append.mpr ⟨forall_mem_append.mpr
      ⟨Expr.isFlaw_of_mem_flaws t, Expr.isFlaw_of_mem_flaws y⟩, Expr.isFlaw_of_mem_flaws n⟩
  | .call _ c args | .new _ c args =>
    forall_mem_append.mpr ⟨Expr.isFlaw_of_mem_flaws c, Expr.isFlaw_of_mem_flawsOfList args⟩

theorem Expr.isFlaw_of_mem_flawsOfList : ∀ es : List Expr, ∀ f ∈ Expr.flawsOfList es, f.IsFlaw
  | [] => by simp [Expr.flawsOfList]
  | e :: es =>
    forall_mem_append.mpr ⟨Expr.isFlaw_of_mem_flaws e, Expr.isFlaw_of_mem_flawsOfList es⟩

theorem Property.isFlaw_of_mem_flawsOfList :
    ∀ ps : List Property, ∀ f ∈ Property.flawsOfList ps, f.IsFlaw
  | [] => by simp [Property.flawsOfList]
  | .mk _ _ v :: ps =>
    forall_mem_append.mpr ⟨Expr.isFlaw_of_mem_flaws v, Property.isFlaw_of_mem_flawsOfList ps⟩

theorem Func.isFlaw_of_mem_flaws : ∀ g : Func, ∀ f ∈ g.flaws, f.IsFlaw
  | .mk _ _ _ _ body => Stmt.isFlaw_of_mem_flawsOfList false body

theorem Expr.isFlaw_of_mem_flawsOfOption : ∀ o : Option Expr, ∀ f ∈ Expr.flawsOfOption o, f.IsFlaw
  | some e => Expr.isFlaw_of_mem_flaws e
  | none => by simp [Expr.flawsOfOption]

theorem Declarator.isFlaw_of_mem_flawsOfList :
    ∀ ds : List Declarator, ∀ f ∈ Declarator.flawsOfList ds, f.IsFlaw
  | [] => by simp [Declarator.flawsOfList]
  | .mk _ _ init :: ds => forall_mem_append.mpr
    ⟨Expr.isFlaw_of_mem_flawsOfOption init, Declarator.isFlaw_of_mem_flawsOfList ds⟩

theorem ForInit.isFlaw_of_mem_flawsOfOption :
    ∀ o : Option ForInit, ∀ f ∈ ForInit.flawsOfOption o, f.IsFlaw
  | some (.vars _ ds) => Declarator.isFlaw_of_mem_flawsOfList ds
  | some (.expr e) => Expr.isFlaw_of_mem_flaws e
  | none => by simp [ForInit.flawsOfOption]

theorem Stmt.isFlaw_of_mem_flaws : ∀ (b : Bool) (s : Stmt), ∀ f ∈ s.flaws b, f.IsFlaw
  | _, .expr _ e => Expr.isFlaw_of_mem_flaws e
  | b, .block _ body => Stmt.isFlaw_of_mem_flawsOfList b body
  | _, .empty _ => by simp [Stmt.flaws]
  | _, .vars _ ds => Declarator.isFlaw_of_mem_flawsOfList ds
  | _, .funcDecl g => Func.isFlaw_of_mem_flaws g
  | b, .ifElse _ t yes no => forall_mem_append.mpr ⟨forall_mem_append.mpr
      ⟨Expr.isFlaw_of_mem_flaws t, Stmt.isFlaw_of_mem_flaws b yes⟩,
      Stmt.isFlaw_of_mem_flawsOfOption b no⟩
  | _, .whileLoop _ t body =>
    forall_mem_append.mpr ⟨Expr.isFlaw_of_mem_flaws t, Stmt.isFlaw_of_mem_flaws true body⟩
  | _, .forLoop _ init test update body => forall_mem_append.mpr ⟨forall_mem_append.mpr
      ⟨forall_mem_append.mpr ⟨ForInit.isFlaw_of_mem_flawsOfOption init,
        Expr.isFlaw_of_mem_flawsOfOption test⟩, Expr.isFlaw_of_mem_flawsOfOption update⟩,
      Stmt.isFlaw_of_mem_flaws true body⟩
  | b, .breakLoop _ | b, .continueLoop _ => by cases b <;> simp [Stmt.flaws]
  | _, .ret _ arg => Expr.isFlaw_of_mem_flawsOfOption arg

theorem Stmt.isFlaw_of_mem_flawsOfOption :
    ∀ (b : Bool) (o : Option Stmt), ∀ f ∈ Stmt.flawsOfOption b o, f.IsFlaw
  | b, some s => Stmt.isFlaw_of_mem_flaws b s
  | _, none => by simp [Stmt.flawsOfOption]

theorem Stmt.isFlaw_of_mem_flawsOfList :
    ∀ (b : Bool) (ss : List Stmt), ∀ f ∈ Stmt.flawsOfList b ss, f.IsFlaw
  | _, [] => by simp [Stmt.flawsOfList]
  | b, s :: rest =>
    forall_mem_append.mpr ⟨Stmt.isFlaw_of_mem_flaws b s, Stmt.isFlaw_of_mem_flawsOfList b rest⟩

end

end IsFlaw

end EcmaLite
