import EcmaLite.Proofs.CodeLayout

/-!
# Compiled code runs as the evaluator

Each compile function lays out a stretch of code that runs as the evaluator's computation for
its syntax: the code of an expression pushes its value (`Code.Pushes` with `Expr.eval`), the code
of a statement runs as `Stmt.eval` with `break` and `continue` leading where the enclosing loop's
code puts them (`Code.Performs`), and so on for lists, entries of object literals, declarators
and hoisted function declarations.

The proof is one induction over the syntax, following the compiler's own recursion: in each case
the layout lemma of the construct (`LaysAt.bind`, `LaysAt.cond`, `LaysAt.whileLoop`, ...) says
where the parts of the code are in the final code, and the run lemma of the construct
(`Code.Pushes.binaryOp`, `Code.Performs.whileLoop`, ...) turns the parts' relations into the
relation of the whole, with the computation the evaluator makes of the construct.
-/

namespace EcmaLite

/-! ## Facts about the evaluator -/

theorem Emit.compoundInstr_eq (op : AssignOp) :
    Emit.compoundInstr op = op.binary?.map Emit.binaryInstr := by
  cases op <;> rfl

/-- The values of a list of expressions are as many as the expressions. -/
theorem Expr.evalList_length (n : Nat) (ρ : EvalEnv) :
    ∀ (es : List Expr) (w : World) (vs : List Value) (w' : World),
      Expr.evalList n ρ es w = .ok vs w' → vs.length = es.length
  | [], w, vs, w', h => by
    simp only [Expr.evalList] at h
    cases h
    rfl
  | e :: rest, w, vs, w', h => by
    simp only [Expr.evalList] at h
    obtain ⟨v, w1, -, h⟩ := Run.bind_eq_ok h
    obtain ⟨vs', _, hvs, h⟩ := Run.bind_eq_ok h
    cases h
    simp [Expr.evalList_length n ρ rest _ _ _ hvs]

/-- Statements in order: the rest runs when the first one ends normally. -/
theorem Stmt.evalList_cons (n : Nat) (ρ : EvalEnv) (s : Stmt) (rest : List Stmt) (cv : Value) :
    Stmt.evalList n ρ (s :: rest) cv =
      Stmt.eval n ρ s cv >>= fun e => Exit.resume e (Stmt.evalList n ρ rest) := by
  simp only [Stmt.evalList]
  congr 1
  funext r
  rcases r with ⟨_ | _ | _ | v, cv'⟩ <;> rfl

namespace Code

variable {C : Code} {p q r : Nat} {op : AssignOp} {bop : BinaryOp}
  {old v : EvalEnv → Nat → Run Value}

/-- The value a plain assignment stores is the right side's, whatever the old value is. -/
theorem Pushes.stored_none (hb : op.binary? = none) (hv : C.Pushes p q v)
    (old : EvalEnv → Nat → Run Value) : C.Pushes p q fun ρ n => op.stored (old ρ n) (v ρ n) :=
  fun _ _ _ => sim_stored_none hb hv

/-- A compound assignment pushes the old value and the right side, then applies the operator. -/
theorem Pushes.stored_some (hb : op.binary? = some bop) (hold : C.Pushes p q old)
    (hv : C.Pushes q r v) (hi : C.instrs[r]? = some (Emit.binaryInstr bop)) :
    C.Pushes p (r + 1) fun ρ n => op.stored (old ρ n) (v ρ n) :=
  fun ρ st cv => sim_stored_some hb (hold ρ st cv) hv hi

/-- The same effects, with the computation written another way. -/
theorem Effects.congr {u u' : EvalEnv → Nat → Run Unit} (h : C.Effects p q u)
    (hu : ∀ ρ n, u' ρ n = u ρ n) : C.Effects p q u' :=
  fun ρ st cv => (h ρ st cv).congr (hu ρ)

end Code

namespace LaysAt

variable {E : Emitter}

/-- A literal pushes its value. -/
theorem literal (l : Lit) :
    LaysAt E (Emit.literal l) fun _ C _ _ p q => C.Pushes p q fun _ _ => Pure.pure l.value := by
  cases l with
  | null =>
    refine (emit .pushNull).mono fun _ C _ _ p q h => ?_
    obtain ⟨hi, rfl⟩ := h
    exact Code.Pushes.value hi fun _ _ _ _ _ => by simp only [step]; rfl
  | bool b =>
    cases b
    · refine (emit .pushFalse).mono fun _ C _ _ p q h => ?_
      obtain ⟨hi, rfl⟩ := h
      exact Code.Pushes.value hi fun _ _ _ _ _ => by simp only [step]; rfl
    · refine (emit .pushTrue).mono fun _ C _ _ p q h => ?_
      obtain ⟨hi, rfl⟩ := h
      exact Code.Pushes.value hi fun _ _ _ _ _ => by simp only [step]; rfl
  | str t =>
    refine ((const (.str t)).bind fun k _ _ => emit (.pushConst k)).mono fun _ C _ _ p q h => ?_
    obtain ⟨k, _, ⟨hk, rfl⟩, hi, rfl⟩ := h
    exact Code.Pushes.str hi hk
  | num m =>
    refine ((const (.num (Emit.numberOf m))).bind fun k _ _ => emit (.pushConst k)).mono
      fun _ C _ _ p q h => ?_
    obtain ⟨k, _, ⟨hk, rfl⟩, hi, rfl⟩ := h
    exact Code.Pushes.num hi hk

end LaysAt

/-! ## Expressions -/

section Expressions

open Emit Code

mutual

/-- The code of an expression pushes its value. -/
theorem expr_lays : ∀ (e : Expr) (E : Emitter),
    LaysAt E (expr e) fun _ C _ _ p q => C.Pushes p q fun ρ n => Expr.eval n ρ e
  | .lit _ l, E => by
    simp only [expr]
    exact (LaysAt.literal l).mono fun _ C _ _ p q h => h.congr fun ρ n => by simp only [Expr.eval]
  | .ident id, E => by
    simp only [expr]
    refine ((LaysAt.name _).bind fun k _ _ => LaysAt.emit (.getVar k)).mono fun _ C _ _ p q h => ?_
    obtain ⟨k, _, ⟨hk, rfl⟩, hi, rfl⟩ := h
    exact (Pushes.getVar hi).congr fun ρ n => by simp only [Expr.eval, hk]
  | .this _, E => by
    simp only [expr]
    refine (LaysAt.emit .this).mono fun _ C _ _ p q h => ?_
    obtain ⟨hi, rfl⟩ := h
    exact (Pushes.this hi).congr fun ρ n => by simp only [Expr.eval]
  | .array _ es, E => by
    simp only [expr]
    refine ((exprs_lays es E).bind fun _ E1 _ => LaysAt.emit (.newArray es.length)).mono
      fun _ C _ _ p q h => ?_
    obtain ⟨_, q1, hes, hi, rfl⟩ := h
    exact (Pushes.array hes (fun ρ n => Expr.evalList_length n ρ es) hi).congr fun ρ n => by
      simp only [Expr.eval]
  | .object _ ps, E => by
    simp only [expr]
    refine ((LaysAt.emit .newObject).bind fun _ E1 _ => props_lays ps E1).mono
      fun _ C _ _ p q h => ?_
    obtain ⟨_, _, ⟨hi, rfl⟩, hps⟩ := h
    exact (Pushes.object hi hps).congr fun ρ n => by simp only [Expr.eval]
  | .func f, E => by
    simp only [expr]
    refine ((LaysAt.func f true).bind fun k _ _ => LaysAt.emit (.makeClosure k)).mono
      fun _ C _ _ p q h => ?_
    obtain ⟨k, _, ⟨rfl, code, hcode, hk⟩, hi, rfl⟩ := h
    exact (Pushes.closure hi hk).congr fun ρ n => by
      simp only [Expr.eval, hcode, Run.lift, pure_bind]
  | .binary _ op l r, E => by
    simp only [expr]
    refine ((expr_lays l E).bind fun _ E1 _ => (expr_lays r E1).bind fun _ E2 _ =>
      LaysAt.emit (binaryInstr op)).mono fun _ C _ _ p q h => ?_
    obtain ⟨_, q1, hl, _, q2, hr, hi, rfl⟩ := h
    exact (Pushes.binaryOp op hl hr hi).congr fun ρ n => by simp only [Expr.eval]
  | .dot _ obj prop, E => by
    simp only [expr]
    refine ((expr_lays obj E).bind fun _ E1 _ => (LaysAt.name _).bind fun k _ _ =>
      LaysAt.emit (.getProp k)).mono fun _ C _ _ p q h => ?_
    obtain ⟨_, q1, hb, k, _, ⟨hk, rfl⟩, hi, rfl⟩ := h
    exact (Pushes.getProp hb hi).congr fun ρ n => by simp only [Expr.eval, hk]
  | .index _ obj key, E => by
    simp only [expr]
    refine ((expr_lays obj E).bind fun _ E1 _ => (expr_lays key E1).bind fun _ E2 _ =>
      LaysAt.emit .getElem).mono fun _ C _ _ p q h => ?_
    obtain ⟨_, q1, hb, _, q2, hk, hi, rfl⟩ := h
    exact (Pushes.getElem hb hk hi).congr fun ρ n => by simp only [Expr.eval]
  | .seq _ items, E => by
    cases items with
    | nil =>
      simp only [expr, Emit.sequence, if_true]
      refine (LaysAt.emit .pushUndefined).mono fun _ C _ _ p q h => ?_
      obtain ⟨hi, rfl⟩ := h
      exact (Pushes.value hi fun _ _ _ _ _ => by simp only [step]; rfl).congr fun ρ n => by
        simp only [Expr.eval, Expr.evalLast]
    | cons e rest =>
      simp only [expr, Emit.sequence, Bool.not_true]
      refine ((expr_lays e E).bind fun _ E1 _ => sequence_lays rest E1).mono
        fun _ C _ _ p q h => ?_
      obtain ⟨_, q1, he, hrest⟩ := h
      exact (Pushes.seq he hrest).congr fun ρ n => by simp only [Expr.eval, Expr.evalLast]
  | .logical _ op l r, E => by
    simp only [expr]
    refine (LaysAt.logical op (expr_lays l E) fun E1 _ => expr_lays r E1).mono
      fun _ C _ _ p s h => ?_
    obtain ⟨q, hl, hdup, hJ, hpop, hr⟩ := h
    cases op
    · exact (Pushes.and hl hdup hJ hpop hr).congr fun ρ n => by simp only [Expr.eval]
    · exact (Pushes.or hl hdup hJ hpop hr).congr fun ρ n => by simp only [Expr.eval]
  | .cond _ t y z, E => by
    simp only [expr]
    refine (LaysAt.cond (expr_lays t E) (fun E1 _ => expr_lays y E1) fun E1 _ => expr_lays z E1).mono
      fun _ C _ _ p s h => ?_
    obtain ⟨q, r, ht, hj, hy, hk, hz⟩ := h
    exact (Pushes.cond ht hj hy hk hz).congr fun ρ n => by simp only [Expr.eval]
  | .new _ callee args, E => by
    simp only [expr]
    refine ((expr_lays callee E).bind fun _ E1 _ => (exprs_lays args E1).bind fun _ E2 _ =>
      LaysAt.emit (.construct args.length)).mono fun _ C _ _ p q h => ?_
    obtain ⟨_, q1, hf, _, q2, hargs, hi, rfl⟩ := h
    exact (Pushes.construct hf hargs (fun ρ n => Expr.evalList_length n ρ args) hi).congr
      fun ρ n => by simp only [Expr.eval]
  | .call _ callee args, E => by
    unfold expr
    split
    · -- a method `obj.name(args)`: the receiver stays under the function
      refine ((expr_lays _ E).bind fun _ E1 _ => (LaysAt.emit .dup).bind fun _ E2 _ =>
        (LaysAt.name _).bind fun k _ _ => (LaysAt.emit (.getProp k)).bind fun _ E4 _ =>
          (exprs_lays args E4).bind fun _ E5 _ => LaysAt.emit (.callMethod args.length)).mono
            fun _ C _ _ p q h => ?_
      obtain ⟨_, q1, hb, _, _, ⟨hdup, rfl⟩, k, _, ⟨hk, rfl⟩, _, _, ⟨hget, rfl⟩, _, q2, hargs, hi,
        rfl⟩ := h
      exact (Pushes.callMember hb hdup hget hargs (fun ρ n => Expr.evalList_length n ρ args)
        hi).congr fun ρ n => by simp only [Expr.eval, hk]
    · -- a method `obj[key](args)`
      refine ((expr_lays _ E).bind fun _ E1 _ => (LaysAt.emit .dup).bind fun _ E2 _ =>
        (expr_lays _ E2).bind fun _ E3 _ => (LaysAt.emit .getElem).bind fun _ E4 _ =>
          (exprs_lays args E4).bind fun _ E5 _ => LaysAt.emit (.callMethod args.length)).mono
            fun _ C _ _ p q h => ?_
      obtain ⟨_, q1, hb, _, _, ⟨hdup, rfl⟩, _, q2, hkey, _, _, ⟨hget, rfl⟩, _, q3, hargs, hi,
        rfl⟩ := h
      exact (Pushes.callIndex hb hdup hkey hget hargs (fun ρ n => Expr.evalList_length n ρ args)
        hi).congr fun ρ n => by simp only [Expr.eval]
    · refine ((expr_lays callee E).bind fun _ E1 _ => (exprs_lays args E1).bind fun _ E2 _ =>
        LaysAt.emit (.call args.length)).mono fun _ C _ _ p q h => ?_
      obtain ⟨_, q1, hf, _, q2, hargs, hi, rfl⟩ := h
      exact (Pushes.call hf hargs (fun ρ n => Expr.evalList_length n ρ args) hi).congr
        fun ρ n => by simp only [Expr.eval]
  | .unary _ op arg, E => by
    unfold expr
    split
    · -- `typeof` of a name
      refine ((LaysAt.name _).bind fun k _ _ => LaysAt.emit (.typeOfVar k)).mono
        fun _ C _ _ p q h => ?_
      obtain ⟨k, _, ⟨hk, rfl⟩, hi, rfl⟩ := h
      exact (Pushes.typeOfVar hi).congr fun ρ n => by simp only [Expr.eval, hk]
    · refine ((expr_lays _ E).bind fun _ E1 _ => LaysAt.emit .typeOf).mono fun _ C _ _ p q h => ?_
      obtain ⟨_, q1, ha, hi, rfl⟩ := h
      exact (Pushes.typeOf ha hi).congr fun ρ n => by simp only [Expr.eval]
    · -- `delete obj.name`
      refine ((expr_lays _ E).bind fun _ E1 _ => (LaysAt.name _).bind fun k _ _ =>
        LaysAt.emit (.deleteProp k)).mono fun _ C _ _ p q h => ?_
      obtain ⟨_, q1, hb, k, _, ⟨hk, rfl⟩, hi, rfl⟩ := h
      exact (Pushes.deleteProp hb hi).congr fun ρ n => by simp only [Expr.eval, hk]
    · -- `delete obj[key]`
      refine ((expr_lays _ E).bind fun _ E1 _ => (expr_lays _ E1).bind fun _ E2 _ =>
        LaysAt.emit .deleteElem).mono fun _ C _ _ p q h => ?_
      obtain ⟨_, q1, hb, _, q2, hk, hi, rfl⟩ := h
      exact (Pushes.deleteElem hb hk hi).congr fun ρ n => by simp only [Expr.eval]
    · -- `delete x` of a name leaves the binding and gives `false`
      refine (LaysAt.emit .pushFalse).mono fun _ C _ _ p q h => ?_
      obtain ⟨hi, rfl⟩ := h
      exact (Pushes.value hi fun _ _ _ _ _ => by simp only [step]; rfl).congr fun ρ n => by
        simp only [Expr.eval]
    · -- `delete` of anything else: the operand runs, and the answer is `true`
      refine ((expr_lays _ E).bind fun _ E1 _ => (LaysAt.emit .pop).bind fun _ E2 _ =>
        LaysAt.emit .pushTrue).mono fun _ C _ _ p q h => ?_
      obtain ⟨_, q1, ha, _, _, ⟨hpop, rfl⟩, hi, rfl⟩ := h
      exact (Pushes.drop ha hpop (Pushes.value hi fun _ _ _ _ _ => by simp only [step]; rfl)).congr
        fun ρ n => by simp only [Expr.eval]
    · refine ((expr_lays _ E).bind fun _ E1 _ => LaysAt.emit .negate).mono fun _ C _ _ p q h => ?_
      obtain ⟨_, q1, ha, hi, rfl⟩ := h
      exact (Pushes.negate ha hi).congr fun ρ n => by simp only [Expr.eval]
    · refine ((expr_lays _ E).bind fun _ E1 _ => LaysAt.emit .toNumber).mono
        fun _ C _ _ p q h => ?_
      obtain ⟨_, q1, ha, hi, rfl⟩ := h
      exact (Pushes.toNumber ha hi).congr fun ρ n => by simp only [Expr.eval]
    · refine ((expr_lays _ E).bind fun _ E1 _ => LaysAt.emit .not).mono fun _ C _ _ p q h => ?_
      obtain ⟨_, q1, ha, hi, rfl⟩ := h
      exact (Pushes.not ha hi).congr fun ρ n => by simp only [Expr.eval]
    · refine ((expr_lays _ E).bind fun _ E1 _ => LaysAt.emit .void).mono fun _ C _ _ p q h => ?_
      obtain ⟨_, q1, ha, hi, rfl⟩ := h
      exact (Pushes.void ha hi).congr fun ρ n => by simp only [Expr.eval]
  | .update _ op isPrefix arg, E => by
    unfold expr
    split
    · refine ((LaysAt.name _).bind fun k _ _ => LaysAt.emit (.updateVar k op isPrefix)).mono
        fun _ C _ _ p q h => ?_
      obtain ⟨k, _, ⟨hk, rfl⟩, hi, rfl⟩ := h
      exact (Pushes.updateVar hi).congr fun ρ n => by simp only [Expr.eval, hk]
    · refine ((expr_lays _ E).bind fun _ E1 _ => (LaysAt.name _).bind fun k _ _ =>
        LaysAt.emit (.updateProp k op isPrefix)).mono fun _ C _ _ p q h => ?_
      obtain ⟨_, q1, hb, k, _, ⟨hk, rfl⟩, hi, rfl⟩ := h
      exact (Pushes.updateProp hb hi).congr fun ρ n => by simp only [Expr.eval, hk]
    · refine ((expr_lays _ E).bind fun _ E1 _ => (expr_lays _ E1).bind fun _ E2 _ =>
        LaysAt.emit (.updateElem op isPrefix)).mono fun _ C _ _ p q h => ?_
      obtain ⟨_, q1, hb, _, q2, hk, hi, rfl⟩ := h
      exact (Pushes.updateElem hb hk hi).congr fun ρ n => by simp only [Expr.eval]
    · exact LaysAt.throw _
  | .assign _ op target value, E => by
    unfold expr
    split
    · exact LaysAt.throw _
    · split
      · rcases hc : compoundInstr op with _ | i
        · -- `x = v`
          have hb : op.binary? = none := by
            rwa [compoundInstr_eq, Option.map_eq_none_iff] at hc
          dsimp only
          refine ((LaysAt.name _).bind fun k E1 _ => (expr_lays value E1).bind fun _ E2 _ =>
            LaysAt.emit (.setVar k)).mono fun _ C _ _ p q h => ?_
          obtain ⟨k, _, ⟨hk, rfl⟩, _, q1, hv, hs, rfl⟩ := h
          exact (Pushes.assignVar (hv.stored_none hb fun ρ _ => ρ.read (C.nameAt k)) hs).congr
            fun ρ n => by simp only [Expr.eval, hk]
        · -- `x op= v`
          obtain ⟨bop, hb, rfl⟩ := Option.map_eq_some_iff.mp ((compoundInstr_eq op).symm.trans hc)
          dsimp only
          refine ((LaysAt.name _).bind fun k E1 _ => (LaysAt.emit (.getVar k)).bind fun _ E2 _ =>
            (expr_lays value E2).bind fun _ E3 _ => (LaysAt.emit (binaryInstr bop)).bind
              fun _ E4 _ => LaysAt.emit (.setVar k)).mono fun _ C _ _ p q h => ?_
          obtain ⟨k, _, ⟨hk, rfl⟩, _, _, ⟨hg, rfl⟩, _, q1, hv, _, _, ⟨hi, rfl⟩, hs, rfl⟩ := h
          exact (Pushes.assignVar (Pushes.stored_some hb (Pushes.getVar hg) hv hi) hs).congr
            fun ρ n => by simp only [Expr.eval, hk]
      · rcases hc : compoundInstr op with _ | i
        · -- `b.name = v`
          have hb : op.binary? = none := by
            rwa [compoundInstr_eq, Option.map_eq_none_iff] at hc
          dsimp only
          refine ((LaysAt.name _).bind fun k E1 _ => (expr_lays _ E1).bind fun _ E2 _ =>
            (expr_lays value E2).bind fun _ E3 _ => LaysAt.emit (.setProp k)).mono
              fun _ C _ _ p q h => ?_
          obtain ⟨k, _, ⟨hk, rfl⟩, _, q1, hobj, _, q2, hv, hs, rfl⟩ := h
          exact (Pushes.assignMember hobj (fun _ _ _ _ => sim_stored_none hb hv)
            hs).congr fun ρ n => by simp only [Expr.eval, hk]
        · -- `b.name op= v`: the object is kept under its old value
          obtain ⟨bop, hb, rfl⟩ := Option.map_eq_some_iff.mp ((compoundInstr_eq op).symm.trans hc)
          dsimp only
          refine ((LaysAt.name _).bind fun k E1 _ => (expr_lays _ E1).bind fun _ E2 _ =>
            (LaysAt.emit .dup).bind fun _ E3 _ => (LaysAt.emit (.getProp k)).bind fun _ E4 _ =>
            (expr_lays value E4).bind fun _ E5 _ => (LaysAt.emit (binaryInstr bop)).bind
              fun _ E6 _ => LaysAt.emit (.setProp k)).mono fun _ C _ _ p q h => ?_
          obtain ⟨k, _, ⟨hk, rfl⟩, _, q1, hobj, _, _, ⟨hdup, rfl⟩, _, _, ⟨hget, rfl⟩, _, q2, hv,
            _, _, ⟨hi, rfl⟩, hs, rfl⟩ := h
          have hold : ∀ (ρ : EvalEnv) b st cv, Sim 0 (.go (ρ.frame C q1 (b :: st) cv))
              (fun _ => Run.getProp b (C.nameAt k)) fun a =>
                .go (ρ.frame C (q1 + 1 + 1) (a :: b :: st) cv) := fun _ _ _ _ =>
            ((sim_dup hdup).andThen (sim_getProp hget)).weaken (Nat.zero_le _)
          exact (Pushes.assignMember hobj (fun ρ b st cv => sim_stored_some hb (hold ρ b st cv) hv hi)
            hs).congr fun ρ n => by simp only [Expr.eval, hk]
      · rcases hc : compoundInstr op with _ | i
        · -- `b[key] = v`
          have hb : op.binary? = none := by
            rwa [compoundInstr_eq, Option.map_eq_none_iff] at hc
          dsimp only
          refine ((expr_lays _ E).bind fun _ E1 _ => (expr_lays _ E1).bind fun _ E2 _ =>
            (expr_lays value E2).bind fun _ E3 _ => LaysAt.emit .setElem).mono
              fun _ C _ _ p q h => ?_
          obtain ⟨_, q1, hobj, _, q2, hkey, _, q3, hv, hs, rfl⟩ := h
          exact (Pushes.assignIndex hobj hkey
            (fun _ _ _ _ _ => sim_stored_none hb hv) hs).congr
              fun ρ n => by simp only [Expr.eval]
        · -- `b[key] op= v`: the object and the key are kept under the old value
          obtain ⟨bop, hb, rfl⟩ := Option.map_eq_some_iff.mp ((compoundInstr_eq op).symm.trans hc)
          dsimp only
          refine ((expr_lays _ E).bind fun _ E1 _ => (expr_lays _ E1).bind fun _ E2 _ =>
            (LaysAt.emit .dup2).bind fun _ E3 _ => (LaysAt.emit .getElem).bind fun _ E4 _ =>
            (expr_lays value E4).bind fun _ E5 _ => (LaysAt.emit (binaryInstr bop)).bind
              fun _ E6 _ => LaysAt.emit .setElem).mono fun _ C _ _ p q h => ?_
          obtain ⟨_, q1, hobj, _, q2, hkey, _, _, ⟨hdup, rfl⟩, _, _, ⟨hget, rfl⟩, _, q3, hv,
            _, _, ⟨hi, rfl⟩, hs, rfl⟩ := h
          have hold : ∀ (ρ : EvalEnv) b key st cv, Sim 0 (.go (ρ.frame C q2 (key :: b :: st) cv))
              (fun _ => Run.getElem b key) fun a =>
                .go (ρ.frame C (q2 + 1 + 1) (a :: key :: b :: st) cv) := fun _ _ _ _ _ =>
            ((sim_dup2 hdup).andThen (sim_getElem hget)).weaken (Nat.zero_le _)
          exact (Pushes.assignIndex hobj hkey
            (fun ρ b key st cv => sim_stored_some hb (hold ρ b key st cv) hv hi) hs).congr
              fun ρ n => by simp only [Expr.eval]
      · exact LaysAt.throw _
termination_by e _ => sizeOf e

/-- The code of a list of expressions pushes their values in order. -/
theorem exprs_lays : ∀ (es : List Expr) (E : Emitter),
    LaysAt E (exprs es) fun _ C _ _ p q => C.PushesAll p q fun ρ n => Expr.evalList n ρ es
  | [], E => by
    simp only [exprs, Expr.evalList]
    exact (LaysAt.pure ()).mono fun _ C _ _ p q h => by
      obtain ⟨-, rfl⟩ := h
      exact PushesAll.nil
  | e :: rest, E => by
    simp only [exprs, Expr.evalList]
    refine ((expr_lays e E).bind fun _ E1 _ => exprs_lays rest E1).mono fun _ C _ _ p q h => ?_
    obtain ⟨_, q1, he, hrest⟩ := h
    exact PushesAll.cons he hrest
termination_by es _ => sizeOf es

/-- The code of the tail of a comma expression replaces the value on top by the last value. -/
theorem sequence_lays : ∀ (es : List Expr) (E : Emitter),
    LaysAt E (sequence false es) fun _ C _ _ p q =>
      C.Replaces p q fun ρ v n => Expr.evalLast n ρ v es
  | [], E => by
    simp only [Emit.sequence, Expr.evalLast, Bool.false_eq_true, if_false]
    exact (LaysAt.pure ()).mono fun _ C _ _ p q h => by
      obtain ⟨-, rfl⟩ := h
      exact Replaces.nil
  | e :: rest, E => by
    simp only [Emit.sequence, Expr.evalLast, Bool.not_false, if_true]
    refine ((LaysAt.emit .pop).bind fun _ E1 _ => (expr_lays e E1).bind fun _ E2 _ =>
      sequence_lays rest E2).mono fun _ C _ _ p q h => ?_
    obtain ⟨_, _, ⟨hi, rfl⟩, _, q2, he, hrest⟩ := h
    exact Replaces.cons hi he hrest
termination_by es _ => sizeOf es

/-- The code of the entries of an object literal stores them into the object on top. -/
theorem props_lays : ∀ (ps : List Property) (E : Emitter),
    LaysAt E (props ps) fun _ C _ _ p q => C.Fills p q fun ρ o n => Property.evalInto n ρ o ps
  | [], E => by
    simp only [props, Property.evalInto]
    exact (LaysAt.pure ()).mono fun _ C _ _ p q h => by
      obtain ⟨-, rfl⟩ := h
      exact Fills.nil
  | .mk _ key value :: rest, E => by
    simp only [props]
    refine ((expr_lays value E).bind fun _ E1 _ => (LaysAt.name key).bind fun k _ _ =>
      (LaysAt.emit (.initProp k)).bind fun _ E3 _ => props_lays rest E3).mono
        fun _ C _ _ p q h => ?_
    obtain ⟨_, q1, hv, k, _, ⟨hk, rfl⟩, _, _, ⟨hi, rfl⟩, hrest⟩ := h
    have hfill := Fills.entry hv hi hrest
    rw [hk] at hfill
    simp only [Property.evalInto]
    exact hfill
termination_by ps _ => sizeOf ps

end

end Expressions

/-! ## Statements -/

section Statements

open Emit Code

/-- Initialisers run in order, each stored into its name and then dropped. -/
theorem declarators_lays : ∀ (ds : List Declarator) (E : Emitter),
    LaysAt E (declarators ds) fun _ C _ _ p q =>
      C.Effects p q fun ρ n => Declarator.evalList n ρ ds
  | [], E => by
    simp only [declarators]
    refine (LaysAt.pure ()).mono fun _ C _ _ p q h => ?_
    obtain ⟨-, rfl⟩ := h
    exact Effects.skip.congr fun ρ n => by simp only [Declarator.evalList]
  | .mk _ id none :: rest, E => by
    simp only [declarators]
    exact (declarators_lays rest E).mono fun _ C _ _ p q h =>
      h.congr fun ρ n => by simp only [Declarator.evalList]
  | .mk _ id (some e) :: rest, E => by
    simp only [declarators]
    refine ((expr_lays e E).bind fun _ E1 _ => (LaysAt.name _).bind fun k E2 _ =>
      (LaysAt.emit (.setVar k)).bind fun _ E3 _ => (LaysAt.emit .pop).bind fun _ E4 _ =>
        declarators_lays rest E4).mono fun _ C _ _ p q h => ?_
    obtain ⟨_, q1, hx, k, _, ⟨hk, rfl⟩, _, _, ⟨hs, rfl⟩, _, _, ⟨hpop, rfl⟩, hrest⟩ := h
    exact ((Effects.assign hx hs hpop).seq hrest).congr fun ρ n => by
      simp only [Declarator.evalList, hk, bind_assoc]

/-- The first clause of a `for` loop only has effects. -/
theorem forInit_lays (init : Option ForInit) (E : Emitter) :
    LaysAt E (forInit init) fun _ C _ _ p q => C.Effects p q fun ρ n => ForInit.eval n ρ init := by
  rcases init with _ | ⟨_, ds⟩ | e
  · simp only [forInit]
    refine (LaysAt.pure ()).mono fun _ C _ _ p q h => ?_
    obtain ⟨-, rfl⟩ := h
    exact Effects.skip.congr fun ρ n => by simp only [ForInit.eval]
  · simp only [forInit]
    exact (declarators_lays ds E).mono fun _ C _ _ p q h =>
      h.congr fun ρ n => by simp only [ForInit.eval]
  · simp only [forInit]
    refine ((expr_lays e E).bind fun _ E1 _ => LaysAt.emit .pop).mono fun _ C _ _ p q h => ?_
    obtain ⟨_, q1, hx, hpop, rfl⟩ := h
    exact (Effects.drop hx hpop).congr fun ρ n => by simp only [ForInit.eval]

/-- The code of the test or the update of a `for` loop, when there is one, pushes its value. -/
theorem optExpr_lays (o : Option Expr) (m : Emit Unit) (hm : optExpr o = some m) (E : Emitter) :
    LaysAt E m fun _ C _ _ p q => ∀ e ∈ o, C.Pushes p q fun ρ n => Expr.eval n ρ e := by
  cases o with
  | none => cases hm
  | some e =>
    simp only [optExpr, Option.some.injEq] at hm
    subst hm
    refine (expr_lays e E).mono fun _ C _ _ p q h e' he => ?_
    rw [Option.mem_def, Option.some.injEq] at he
    exact he ▸ h

/-- The test of a `for` loop as its code is laid out: from `a` it leads to `q` when the test
holds and to `s` when it fails; a missing test holds. -/
theorem sim_loopTest {C : Code} {test : Option Expr} {a q s : Nat}
    (h : optExpr test = none ∧ q = a ∨ ∃ t, (optExpr test).isSome ∧
      (∀ e ∈ test, C.Pushes a t fun ρ n => Expr.eval n ρ e) ∧
      C.instrs[t]? = some (.jumpIfFalse s) ∧ q = t + 1)
    (ρ : EvalEnv) (st : List Value) (cv : Value) :
    Sim 0 (.go (ρ.frame C a st cv)) (fun n => Expr.evalTest n ρ test) fun b =>
      .go (ρ.frame C (if b then q else s) st cv) := by
  cases test with
  | none =>
    obtain ⟨-, rfl⟩ | ⟨_, hs, -⟩ := h
    · exact Sim.congr (x := fun _ => Pure.pure true) (Sim.pure true rfl) fun n => by
        simp only [Expr.evalTest]
    · simp [optExpr] at hs
  | some e =>
    obtain ⟨hn, -⟩ | ⟨t, -, hx, hj, rfl⟩ := h
    · simp [optExpr] at hn
    · exact ((sim_test (hx e rfl) hj ρ st cv).weaken (Nat.zero_le _)).congr fun n => by
        simp only [Expr.evalTest]

/-- The update of a `for` loop as its code is laid out: its value is dropped. -/
theorem Code.Effects.loopUpdate {C : Code} {update : Option Expr} {r u : Nat}
    (h : optExpr update = none ∧ u = r ∨ ∃ v, (optExpr update).isSome ∧
      (∀ e ∈ update, C.Pushes r v fun ρ n => Expr.eval n ρ e) ∧
      C.instrs[v]? = some .pop ∧ u = v + 1) :
    C.Effects r u fun ρ n => Expr.evalUpdate n ρ update := by
  cases update with
  | none =>
    obtain ⟨-, rfl⟩ | ⟨_, hs, -⟩ := h
    · exact Effects.skip.congr fun ρ n => by simp only [Expr.evalUpdate]
    · simp [optExpr] at hs
  | some e =>
    obtain ⟨hn, -⟩ | ⟨v, -, hx, hpop, rfl⟩ := h
    · simp [optExpr] at hn
    · exact (Effects.drop (hx e rfl) hpop).congr fun ρ n => by simp only [Expr.evalUpdate]

/-- An expression statement of a script stores its value as the completion value. -/
theorem exprStmt_setCompletion {E : Emitter} (hs : E.isScript = true) (E1 : Emitter)
    (g1 : E.Grows E1) :
    LaysAt E1 (discard (emit (if E1.isScript then .setCompletion else .pop))) fun _ C _ _ p q =>
      C.instrs[p]? = some .setCompletion ∧ q = p + 1 := by
  rw [g1.isScript, hs, if_pos rfl]
  exact LaysAt.emit _

mutual

/-- The code of a statement of a script runs as the statement, with `break` and `continue`
leading where the enclosing loop's code puts them. -/
theorem stmt_lays : ∀ (s : Stmt) (E : Emitter), E.isScript = true →
    LaysAt E (stmt s) fun _ C brk cont p q =>
      C.Performs p q brk cont fun ρ n cv => Stmt.eval n ρ s cv
  | .empty _, E, _ => by
    simp only [stmt]
    refine (LaysAt.pure ()).mono fun _ C _ _ p q h => ?_
    obtain ⟨-, rfl⟩ := h
    exact Performs.skip.congr fun ρ n cv => by simp only [Stmt.eval]
  | .expr _ e, E, hs => by
    simp only [stmt, exprStmt]
    refine ((expr_lays e E).bind fun _ E1 g1 =>
      LaysAt.get_bind (exprStmt_setCompletion hs E1 g1)).mono fun _ C _ _ p q h => ?_
    obtain ⟨_, q1, hx, hi, rfl⟩ := h
    exact (Performs.expr hx hi).congr fun ρ n cv => by simp only [Stmt.eval]
  | .block _ ss, E, hs => by
    simp only [stmt]
    exact (block_lays ss E hs).mono fun _ C brk cont p q h =>
      h.congr fun ρ n cv => by simp only [Stmt.eval]
  | .vars _ ds, E, _ => by
    simp only [stmt]
    exact (declarators_lays ds E).mono fun _ C brk cont p q h =>
      (Performs.effects h).congr fun ρ n cv => by simp only [Stmt.eval]
  | .funcDecl _, E, _ => by
    -- a function declaration was bound before the body ran
    simp only [stmt]
    refine (LaysAt.pure ()).mono fun _ C _ _ p q h => ?_
    obtain ⟨-, rfl⟩ := h
    exact Performs.skip.congr fun ρ n cv => by simp only [Stmt.eval]
  | .ifElse _ test yes (some no), E, hs => by
    simp only [stmt]
    refine (LaysAt.cond (expr_lays test E) (fun E1 g1 => stmt_lays yes E1 (g1.isScript.trans hs))
      fun E1 g1 => stmt_lays no E1 (g1.isScript.trans hs)).mono fun _ C brk cont p s h => ?_
    obtain ⟨q, r, hx, hj, hy, hk, hn⟩ := h
    exact (Performs.cond hx hj hy hk hn).congr fun ρ n cv => by simp only [Stmt.eval]
  | .ifElse _ test yes none, E, hs => by
    simp only [stmt]
    refine (LaysAt.ifThen (expr_lays test E) fun E1 g1 =>
      stmt_lays yes E1 (g1.isScript.trans hs)).mono fun _ C brk cont p r h => ?_
    obtain ⟨q, hx, hj, hy⟩ := h
    exact (Performs.ifThen hx hj hy).congr fun ρ n cv => by simp only [Stmt.eval]
  | .whileLoop _ test b, E, hs => by
    simp only [stmt]
    refine (LaysAt.whileLoop (expr_lays test E) fun E1 h1 =>
      stmt_lays b E1 (h1.trans hs)).mono fun _ C brk cont p s h => ?_
    obtain ⟨q, r, hx, hj, hy, hk, rfl⟩ := h
    exact (Performs.whileLoop hx hj hy hk).congr fun ρ n cv => by simp only [Stmt.eval]
  | .forLoop _ init test update b, E, hs => by
    simp only [stmt]
    refine (LaysAt.forLoop (forInit_lays init E) (optExpr_lays test)
      (fun E1 h1 => stmt_lays b E1 (h1.trans hs)) (optExpr_lays update)).mono
        fun _ C brk cont p s h => ?_
    obtain ⟨a, q, r, u, hi, ht, hy, hu, hk, rfl⟩ := h
    exact (Performs.after_effects hi (Performs.forLoop (sim_loopTest ht) hy
      (Effects.loopUpdate hu) hk)).congr fun ρ n cv => by simp only [Stmt.eval]
  | .breakLoop _, E, _ => by
    simp only [stmt]
    refine (LaysAt.loopExit true).mono fun _ C brk cont p q h => ?_
    obtain ⟨hi, rfl⟩ := h
    exact (Performs.breaks hi).congr fun ρ n cv => by simp only [Stmt.eval]
  | .continueLoop _, E, _ => by
    simp only [stmt]
    refine (LaysAt.loopExit false).mono fun _ C brk cont p q h => ?_
    obtain ⟨hi, rfl⟩ := h
    exact (Performs.continues hi).congr fun ρ n cv => by simp only [Stmt.eval]
  | .ret _ (some e), E, _ => by
    simp only [stmt, optExpr, retCode]
    refine ((expr_lays e E).bind fun _ E1 _ => LaysAt.emit .ret).mono fun _ C _ _ p q h => ?_
    obtain ⟨_, q1, hx, hi, rfl⟩ := h
    exact (Performs.ret hx hi).congr fun ρ n cv => by simp only [Stmt.eval]
  | .ret _ none, E, _ => by
    simp only [stmt, optExpr, retCode]
    refine ((LaysAt.emit .pushUndefined).bind fun _ E1 _ => LaysAt.emit .ret).mono
      fun _ C _ _ p q h => ?_
    obtain ⟨_, _, ⟨hu, rfl⟩, hi, rfl⟩ := h
    exact (Performs.ret (Pushes.value hu fun _ _ _ _ _ => by simp only [step]; rfl) hi).congr
      fun ρ n cv => by simp only [Stmt.eval, pure_bind]
termination_by s _ _ => sizeOf s

/-- The code of a list of statements of a script runs them in order. -/
theorem block_lays : ∀ (ss : List Stmt) (E : Emitter), E.isScript = true →
    LaysAt E (block ss) fun _ C brk cont p q =>
      C.Performs p q brk cont fun ρ n cv => Stmt.evalList n ρ ss cv
  | [], E, _ => by
    simp only [block]
    refine (LaysAt.pure ()).mono fun _ C _ _ p q h => ?_
    obtain ⟨-, rfl⟩ := h
    exact Performs.skip.congr fun ρ n cv => by simp only [Stmt.evalList]
  | s :: rest, E, hs => by
    simp only [block]
    refine ((stmt_lays s E hs).bind fun _ E1 g1 =>
      block_lays rest E1 (g1.isScript.trans hs)).mono fun _ C brk cont p r h => ?_
    obtain ⟨_, q, hy, hz⟩ := h
    exact (Performs.cons hy hz).congr fun ρ n cv => Stmt.evalList_cons n ρ s rest cv
termination_by ss _ _ => sizeOf ss

end

end Statements

/-! ## Declarations bound before a body runs -/

section Declarations

open Emit Code

/-- The code of `declareVars` declares the names in order. -/
theorem declareVars_lays : ∀ (xs : List String) (E : Emitter),
    LaysAt E (declareVars xs) fun _ C _ _ p q =>
      C.Effects p q fun ρ _ => xs.forM fun x => modify (World.declare ρ.scope x)
  | [], E => by
    simp only [declareVars]
    refine (LaysAt.pure ()).mono fun _ C _ _ p q h => ?_
    obtain ⟨-, rfl⟩ := h
    exact Effects.skip.congr fun ρ n => by simp only [List.forM_eq_forM, List.forM_nil]
  | x :: rest, E => by
    simp only [declareVars]
    refine ((LaysAt.name x).bind fun k E1 _ => (LaysAt.emit (.declareVar k)).bind fun _ E2 _ =>
      declareVars_lays rest E2).mono fun _ C _ _ p q h => ?_
    obtain ⟨k, _, ⟨hk, rfl⟩, _, _, ⟨hi, rfl⟩, hrest⟩ := h
    exact ((Effects.declare hi).seq hrest).congr fun ρ n => by
      simp only [List.forM_eq_forM, List.forM_cons, hk]

mutual

/-- The code of `hoist` binds the closures of the function declarations in statement positions,
in source order. -/
theorem hoist_lays : ∀ (ss : List Stmt) (E : Emitter),
    LaysAt E (hoist ss) fun _ C _ _ p q => C.Effects p q fun ρ _ =>
      (Stmt.hoistedList ss).forM fun f => do
        let v ← ρ.closure (← Run.lift (f.code false))
        modify (World.bind ρ.scope f.nameText v)
  | [], E => by
    simp only [hoist]
    refine (LaysAt.pure ()).mono fun _ C _ _ p q h => ?_
    obtain ⟨-, rfl⟩ := h
    exact Effects.skip.congr fun ρ n => by
      simp only [Stmt.hoistedList, List.forM_eq_forM, List.forM_nil]
  | s :: rest, E => by
    simp only [hoist]
    refine ((hoistIn_lays s E).bind fun _ E1 _ => hoist_lays rest E1).mono
      fun _ C _ _ p r h => ?_
    obtain ⟨_, q, hs, hrest⟩ := h
    exact (hs.seq hrest).congr fun ρ n => by
      simp only [Stmt.hoistedList, List.forM_eq_forM, List.forM_append]
termination_by ss _ => sizeOf ss

/-- `hoist_lays` inside one statement. -/
theorem hoistIn_lays : ∀ (s : Stmt) (E : Emitter),
    LaysAt E (hoistIn s) fun _ C _ _ p q => C.Effects p q fun ρ _ =>
      s.hoisted.forM fun f => do
        let v ← ρ.closure (← Run.lift (f.code false))
        modify (World.bind ρ.scope f.nameText v)
  | .funcDecl f, E => by
    simp only [hoistIn]
    refine ((LaysAt.func f false).bind fun k E1 _ => (LaysAt.emit (.makeClosure k)).bind
      fun _ E2 _ => (LaysAt.name _).bind fun j E3 _ => LaysAt.emit (.bindFunction j)).mono
        fun _ C _ _ p q h => ?_
    obtain ⟨k, _, ⟨rfl, code, hcode, hk⟩, _, _, ⟨hi, rfl⟩, j, _, ⟨hj, rfl⟩, hb, rfl⟩ := h
    exact (Effects.bindClosure hi hk hb).congr fun ρ n => by
      simp only [Stmt.hoisted, List.forM_eq_forM, List.forM_cons, List.forM_nil, hcode, Run.lift,
        pure_bind, hj, bind_pure_unit]
  | .block _ ss, E => by
    simp only [hoistIn]
    exact (hoist_lays ss E).mono fun _ C _ _ p q h =>
      h.congr fun ρ n => by simp only [Stmt.hoisted]
  | .ifElse _ _ yes (some no), E => by
    simp only [hoistIn]
    refine ((hoistIn_lays yes E).bind fun _ E1 _ => hoistIn_lays no E1).mono
      fun _ C _ _ p r h => ?_
    obtain ⟨_, q, hy, hn⟩ := h
    exact (hy.seq hn).congr fun ρ n => by
      simp only [Stmt.hoisted, List.forM_eq_forM, List.forM_append]
  | .ifElse _ _ yes none, E => by
    simp only [hoistIn]
    refine ((hoistIn_lays yes E).bind fun _ E1 _ => LaysAt.pure ()).mono
      fun _ C _ _ p r h => ?_
    obtain ⟨_, q, hy, -, rfl⟩ := h
    exact hy.congr fun ρ n => by simp only [Stmt.hoisted, List.append_nil]
  | .whileLoop _ _ b, E => by
    simp only [hoistIn]
    exact (hoistIn_lays b E).mono fun _ C _ _ p q h =>
      h.congr fun ρ n => by simp only [Stmt.hoisted]
  | .forLoop _ _ _ _ b, E => by
    simp only [hoistIn]
    exact (hoistIn_lays b E).mono fun _ C _ _ p q h =>
      h.congr fun ρ n => by simp only [Stmt.hoisted]
  | .empty _, E | .expr _ _, E | .vars _ _, E | .breakLoop _, E | .continueLoop _, E
  | .ret _ _, E => by
    simp only [hoistIn]
    refine (LaysAt.pure ()).mono fun _ C _ _ p q h => ?_
    obtain ⟨-, rfl⟩ := h
    exact Effects.skip.congr fun ρ n => by
      simp only [Stmt.hoisted, List.forM_eq_forM, List.forM_nil]
termination_by s _ => sizeOf s

end

end Declarations

end EcmaLite
