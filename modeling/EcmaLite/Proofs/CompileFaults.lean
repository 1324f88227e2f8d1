import EcmaLite.Proofs.CompileFlaws
import EcmaLite.Proofs.EmitRun

/-!
# Compilation fails exactly on flawed scripts

`Program.compile` stops with a fault exactly when the script has a flaw, and the fault it stops
with is one of the script's flaws (`compile_fails_iff_flawed`).

The proof follows the compiler function by function with one judgement, `Reports m E fs ds n`:
run from the emitter `E`, the step `m` fails only with a fault of `fs`, and when it goes through,
every fault of `fs` is one of `ds` and `n` loops are open. For an expression `ds` is empty: its
flaws all stop compilation. For a statement `ds` is the flaws of the function declarations it
holds, which are compiled with the hoisted declarations before the statements and not again at
their place. A body compiles its hoisted declarations first, so those flaws are found there
(`Reports.bind_resolve`). The depth `n` is what decides whether a `break` is a flaw; a function
body starts again at depth 0.
-/

namespace EcmaLite

/-- Run from `E`, `m` stops only with a fault of `fs`; when it goes through, every fault of `fs`
is one of `ds`, and `depth` loops are open. -/
structure Reports {α : Type} (m : Emit α) (E : Emitter) (fs ds : List Fault) (depth : Nat) :
    Prop where
  fault : ∀ f, m.run E = .error f → f ∈ fs
  done : ∀ a E', m.run E = .ok (a, E') → (∀ f ∈ fs, f ∈ ds) ∧ E'.loops.length = depth

namespace Reports

variable {α β : Type} {m : Emit α} {E : Emitter} {fs ds fs' ds' : List Fault} {n n' : Nat}

theorem congr (h : Reports m E fs ds n) (hfs : ∀ f, f ∈ fs' ↔ f ∈ fs) (hds : ∀ f ∈ ds, f ∈ ds') :
    Reports m E fs' ds' n where
  fault f hf := (hfs f).mpr (h.fault f hf)
  done a E' hrun := by
    obtain ⟨hsub, hlen⟩ := h.done a E' hrun
    exact ⟨fun f hf => hds f (hsub f ((hfs f).mp hf)), hlen⟩

theorem bind {x : Emit α} {g : α → Emit β} {fs1 ds1 fs2 ds2 : List Fault}
    (hx : Reports x E fs1 ds1 n)
    (hg : ∀ a E1, x.run E = .ok (a, E1) → E1.loops.length = n → Reports (g a) E1 fs2 ds2 n') :
    Reports (x >>= g) E (fs1 ++ fs2) (ds1 ++ ds2) n' where
  fault f hf := by
    rw [StateT.run_bind] at hf
    cases hrun : x.run E with
    | error e =>
      rw [hrun] at hf
      change Except.error e = Except.error f at hf
      cases hf
      exact List.mem_append_left _ (hx.fault _ hrun)
    | ok p =>
      rw [hrun] at hf
      have hlen := (hx.done p.1 p.2 hrun).2
      exact List.mem_append_right _ ((hg p.1 p.2 hrun hlen).fault f hf)
  done b E' hrun := by
    obtain ⟨a, E1, hrun1, hrun2⟩ := Emit.run_bind_ok hrun
    obtain ⟨hsub1, hlen1⟩ := hx.done a E1 hrun1
    obtain ⟨hsub2, hlen2⟩ := (hg a E1 hrun1 hlen1).done b E' hrun2
    refine ⟨fun f hf => ?_, hlen2⟩
    rcases List.mem_append.mp hf with hf | hf
    · exact List.mem_append_left _ (hsub1 f hf)
    · exact List.mem_append_right _ (hsub2 f hf)

/-- `x`, then steps that find no flaw. -/
theorem bind_last {x : Emit α} {g : α → Emit β} (hx : Reports x E fs ds n)
    (hg : ∀ a E1, x.run E = .ok (a, E1) → E1.loops.length = n → Reports (g a) E1 [] [] n') :
    Reports (x >>= g) E fs ds n' :=
  (hx.bind hg).congr (by simp) (by simp)

/-- `x`, then steps whose flaws are all their own. -/
theorem bind_nil {x : Emit α} {g : α → Emit β} {fs2 : List Fault} (hx : Reports x E fs ds n)
    (hg : ∀ a E1, x.run E = .ok (a, E1) → E1.loops.length = n → Reports (g a) E1 fs2 [] n') :
    Reports (x >>= g) E (fs ++ fs2) ds n' :=
  (hx.bind hg).congr (fun _ => Iff.rfl) (by simp)

/-- A step that cannot fail and leaves the loops alone, followed by `g`. -/
theorem bind_quiet {x : Emit α} {g : α → Emit β} {a : α} {E1 : Emitter}
    (hx : x.run E = .ok (a, E1)) (hg : Reports (g a) E1 fs ds n) : Reports (x >>= g) E fs ds n where
  fault f hf := by
    rw [StateT.run_bind, hx] at hf
    exact hg.fault f hf
  done b E' hrun := by
    rw [StateT.run_bind, hx] at hrun
    exact hg.done b E' hrun

theorem quiet {x : Emit α} {a : α} {E1 : Emitter} (hx : x.run E = .ok (a, E1))
    (hl : E1.loops.length = n) : Reports x E [] [] n where
  fault f hf := by rw [hx] at hf; cases hf
  done b E' hrun := by
    rw [hx] at hrun
    obtain ⟨-, rfl⟩ := Prod.mk.inj (Except.ok.inj hrun)
    exact ⟨fun _ h => (nomatch h), hl⟩

theorem get_bind {g : Emitter → Emit α} (h : Reports (g E) E fs ds n) :
    Reports (get >>= g) E fs ds n where
  fault f hf := h.fault f (by simpa only [StateT.run_bind, StateT.run_get, pure_bind] using hf)
  done a E' hrun := h.done a E' (by simpa only [StateT.run_bind, StateT.run_get, pure_bind] using hrun)

theorem pure_unit (h : E.loops.length = n) : Reports (pure () : Emit Unit) E [] [] n := quiet rfl h

theorem throw_mem {f : Fault} (hf : f ∈ fs) : Reports (throw f : Emit α) E fs ds n where
  fault f' h := by cases h; exact hf
  done _ _ h := nomatch h

/-- A step that finds no flaw, followed by `g`. -/
theorem quiet_bind {x : Emit α} {g : α → Emit β} (hx : Reports x E [] [] n)
    (hg : ∀ a E1, x.run E = .ok (a, E1) → E1.loops.length = n → Reports (g a) E1 fs ds n') :
    Reports (x >>= g) E fs ds n' :=
  (hx.bind hg).congr (by simp) (by simp)

/-- Nothing to do, with flaws that are left to be found later. -/
theorem defer (hsub : ∀ f ∈ fs, f ∈ ds) (h : E.loops.length = n) :
    Reports (pure () : Emit Unit) E fs ds n where
  fault _ hf := nomatch hf
  done _ _ hrun := by
    obtain ⟨-, rfl⟩ := Prod.mk.inj (Except.ok.inj hrun)
    exact ⟨hsub, h⟩

/-- `x` may leave flaws to be found later, and `g` finds no others: after `x` goes through, the
flaws it left are the only ones `g` may go through with. -/
theorem bind_resolve {x : Emit α} {g : α → Emit β} {fs1 fs2 : List Fault}
    (hx : Reports x E fs1 [] n)
    (hg : ∀ a E1, x.run E = .ok (a, E1) → E1.loops.length = n → Reports (g a) E1 fs2 fs1 n') :
    Reports (x >>= g) E (fs1 ++ fs2) [] n' where
  fault := (hx.bind hg).fault
  done b E' hrun := by
    obtain ⟨a, E1, hrun1, hrun2⟩ := Emit.run_bind_ok hrun
    obtain ⟨hsub1, hlen1⟩ := hx.done a E1 hrun1
    obtain ⟨hsub2, hlen2⟩ := (hg a E1 hrun1 hlen1).done b E' hrun2
    refine ⟨fun f hf => ?_, hlen2⟩
    rcases List.mem_append.mp hf with hf | hf
    · exact hsub1 f hf
    · exact hsub1 f (hsub2 f hf)

end Reports

namespace Emit

variable {α : Type} {E : Emitter} {fs ds : List Fault} {n : Nat}

theorem reports_emit_bind {i : Instr} {g : Nat → Emit α}
    (h : Reports (g E.instrs.size) { E with instrs := E.instrs.push i } fs ds n) :
    Reports (emit i >>= g) E fs ds n :=
  Reports.bind_quiet (run_emit i) h

theorem reports_discard_emit_bind {i : Instr} {g : Unit → Emit α}
    (h : Reports (g ()) { E with instrs := E.instrs.push i } fs ds n) :
    Reports (discard (emit i) >>= g) E fs ds n :=
  Reports.bind_quiet (run_discard_emit i) h

theorem reports_discard_emit {i : Instr} (h : E.loops.length = n) :
    Reports (discard (emit i)) E [] [] n :=
  Reports.quiet (run_discard_emit i) h

theorem reports_aimHere_bind {j : Nat} {g : Unit → Emit α}
    (h : Reports (g ()) { E with instrs := E.instrs.modify j (Instr.retarget E.instrs.size) }
      fs ds n) : Reports (aimHere j >>= g) E fs ds n :=
  Reports.bind_quiet (run_aimHere j) h

theorem reports_aimHere {j : Nat} (h : E.loops.length = n) : Reports (aimHere j) E [] [] n :=
  Reports.quiet (run_aimHere j) h

theorem reports_name_bind {s : String} {g : Nat → Emit α}
    (h : ∀ k (E1 : Emitter), E1.loops = E.loops → Reports (g k) E1 fs ds n) :
    Reports (name s >>= g) E fs ds n := by
  have hrun := run_name (E := E) s
  cases hidx : E.names.idxOf? s with
  | none =>
    rw [hidx, Option.elim_none] at hrun
    exact Reports.bind_quiet hrun (h _ _ rfl)
  | some i =>
    rw [hidx, Option.elim_some] at hrun
    exact Reports.bind_quiet hrun (h _ _ rfl)

theorem reports_literal (l : Lit) : Reports (literal l) E [] [] E.loops.length := by
  cases l with
  | null => exact reports_discard_emit rfl
  | bool b => cases b <;> exact reports_discard_emit rfl
  | str s => exact Reports.bind_quiet (run_const _) (reports_discard_emit rfl)
  | num x => exact Reports.bind_quiet (run_const _) (reports_discard_emit rfl)

theorem reports_declareVars (ns : List String) : Reports (declareVars ns) E [] [] E.loops.length := by
  induction ns generalizing E with
  | nil => exact Reports.pure_unit rfl
  | cons s ns ih =>
    unfold declareVars
    exact reports_name_bind fun _ E1 hl => reports_discard_emit_bind (hl ▸ ih)

theorem reports_enterLoop_bind {g : Unit → Emit α}
    (h : Reports (g ()) { E with loops := ⟨[], []⟩ :: E.loops } fs ds n) :
    Reports (enterLoop >>= g) E fs ds n :=
  Reports.bind_quiet run_enterLoop h

/-- Closing the innermost loop. -/
theorem reports_leaveLoop {t : Nat} (h : E.loops.length = n + 1) :
    Reports (leaveLoop t) E [] [] n := by
  cases hl : E.loops with
  | nil => rw [hl] at h; cases h
  | cons l rest =>
    rw [hl, List.length_cons] at h
    exact Reports.quiet (run_leaveLoop hl) (Nat.succ.inj h)

/-- A `break` or `continue` inside a loop is a jump to be aimed; outside every loop it is the
fault. -/
theorem reports_loopExit (b : Bool) :
    Reports (loopExit b) E (if E.loops.length != 0 then []
      else [if b then .strayBreak else .strayContinue]) [] E.loops.length := by
  cases hl : E.loops with
  | nil =>
    refine ⟨fun f hf => ?_, fun a E' hrun => absurd hrun (run_loopExit_ne_ok hl E')⟩
    unfold loopExit at hf
    rw [StateT.run_bind, run_emit] at hf
    simp only [except_ok_bind, StateT.run_bind, StateT.run_get, pure_bind, hl] at hf
    cases b <;> (change Except.error _ = Except.error f at hf; cases hf; simp)
  | cons l rest =>
    have hq : Reports (loopExit b) E [] [] (l :: rest).length :=
      Reports.quiet (run_loopExit hl) (by simp)
    exact hq.congr (by simp) (by simp)

theorem reports_addFunction {c : Code} : Reports (addFunction c) E [] [] E.loops.length :=
  Reports.quiet (run_addFunction c) rfl

variable {l r test yes no body init : Emit Unit}
  {fl fr ft fy fn fb fi fu dl dr dt dy dn db di : List Fault}

theorem reports_logicalCode (op : LogicalOp) (hl : Reports l E fl dl n)
    (hr : ∀ E1 : Emitter, E1.loops.length = n → Reports r E1 fr dr n) :
    Reports (logicalCode op l r) E (fl ++ fr) (dl ++ dr) n := by
  unfold logicalCode
  refine hl.bind fun _ E1 _ h1 => reports_discard_emit_bind (reports_emit_bind
    (reports_discard_emit_bind ?_))
  exact (hr _ (by exact h1)).bind_last fun _ _ _ h2 => reports_aimHere h2

theorem reports_condCode (ht : Reports test E ft dt n)
    (hy : ∀ E1 : Emitter, E1.loops.length = n → Reports yes E1 fy dy n)
    (hn : ∀ E1 : Emitter, E1.loops.length = n → Reports no E1 fn dn n) :
    Reports (condCode test yes no) E (ft ++ (fy ++ fn)) (dt ++ (dy ++ dn)) n := by
  unfold condCode
  refine ht.bind fun _ E1 _ h1 => reports_emit_bind ?_
  refine (hy _ (by exact h1)).bind fun _ E2 _ h2 => reports_emit_bind (reports_aimHere_bind ?_)
  exact (hn _ (by exact h2)).bind_last fun _ _ _ h3 => reports_aimHere h3

theorem reports_ifCode (ht : Reports test E ft dt n)
    (hy : ∀ E1 : Emitter, E1.loops.length = n → Reports yes E1 fy dy n) :
    Reports (ifCode test yes) E (ft ++ fy) (dt ++ dy) n := by
  unfold ifCode
  refine ht.bind fun _ E1 _ h1 => reports_emit_bind ?_
  exact (hy _ (by exact h1)).bind_last fun _ _ _ h2 => reports_aimHere h2

theorem reports_exprStmt (h : Reports l E fl dl n) : Reports (exprStmt l) E fl dl n := by
  unfold exprStmt
  exact h.bind_last fun _ _ _ h1 => Reports.get_bind (reports_discard_emit h1)

/-- A loop's body is compiled with one more loop open, which closes after it. -/
theorem reports_whileCode (ht : Reports test E ft dt n)
    (hb : ∀ E1 : Emitter, E1.loops.length = n + 1 → Reports body E1 fb db (n + 1)) :
    Reports (whileCode test body) E (ft ++ fb) (dt ++ db) n := by
  unfold whileCode
  refine Reports.bind_quiet run_here (ht.bind fun _ E1 _ h1 => reports_emit_bind
    (reports_enterLoop_bind ?_))
  refine (hb _ (by simp [h1])).bind_last fun _ E2 _ h2 => reports_discard_emit_bind
    (reports_aimHere_bind (reports_leaveLoop h2))

theorem reports_loopTest_some (h : Reports l E fl dl n) :
    Reports (loopTest (some l)) E fl dl n := by
  unfold loopTest
  exact h.bind_last fun _ _ _ h1 => Reports.quiet rfl h1

theorem reports_loopTest_none (h : E.loops.length = n) : Reports (loopTest none) E [] [] n :=
  Reports.quiet rfl h

theorem reports_loopUpdate_some (h : Reports l E fl dl n) :
    Reports (loopUpdate (some l)) E fl dl n := by
  unfold loopUpdate
  exact h.bind_last fun _ _ _ h1 => reports_discard_emit h1

theorem reports_loopUpdate_none (h : E.loops.length = n) : Reports (loopUpdate none) E [] [] n :=
  Reports.quiet rfl h

/-- A `for` loop: the first part and the test outside the loop, the body and the update inside
it. -/
theorem reports_forCode {test update : Option (Emit Unit)} (hi : Reports init E fi di n)
    (ht : ∀ E1 : Emitter, E1.loops.length = n → Reports (loopTest test) E1 ft dt n)
    (hb : ∀ E1 : Emitter, E1.loops.length = n + 1 → Reports body E1 fb db (n + 1))
    (hu : ∀ E1 : Emitter, E1.loops.length = n + 1 →
      Reports (loopUpdate update) E1 fu [] (n + 1)) :
    Reports (forCode init test update body) E (fi ++ (ft ++ (fb ++ fu))) (di ++ (dt ++ db)) n := by
  unfold forCode
  refine hi.bind fun _ E1 _ h1 => Reports.bind_quiet run_here ?_
  refine (ht _ (by exact h1)).bind fun _ E2 _ h2 => reports_enterLoop_bind ?_
  refine (hb _ (by simp [h2])).bind_nil fun _ E3 _ h3 => Reports.bind_quiet run_here ?_
  refine (hu _ (by exact h3)).bind_last fun _ E4 _ h4 => reports_discard_emit_bind ?_
  exact Reports.bind_quiet (run_aimExit _) (reports_leaveLoop (by cases ‹Option Nat› <;> exact h4))

theorem reports_retCode_some (h : Reports l E fl dl n) : Reports (retCode (some l)) E fl dl n := by
  unfold retCode
  exact h.bind_last fun _ _ _ h1 => reports_discard_emit h1

theorem reports_retCode_none (h : E.loops.length = n) : Reports (retCode none) E [] [] n := by
  unfold retCode
  exact Reports.bind_quiet (run_discard_emit _) (reports_discard_emit h)

/-- A body: its `var` names, its function declarations, its statements, and what ends it. -/
theorem reports_body (stmts : List Stmt) (fin : Emit Unit)
    (hhoist : ∀ E1 : Emitter, E1.loops.length = n →
      Reports (hoist stmts) E1 (Stmt.hoistedFlawsOfList stmts) [] n)
    (hblock : ∀ E1 : Emitter, E1.loops.length = n →
      Reports (block stmts) E1 fs (Stmt.hoistedFlawsOfList stmts) n)
    (hfin : ∀ E1 : Emitter, E1.loops.length = n → Reports fin E1 [] [] n) (hE : E.loops.length = n) :
    Reports (do declareVars (varNames stmts); hoist stmts; block stmts; fin) E
      (Stmt.hoistedFlawsOfList stmts ++ fs) [] n := by
  refine (hE ▸ reports_declareVars (varNames stmts)).quiet_bind fun _ E1 _ h1 => ?_
  exact (hhoist E1 h1).bind_resolve fun _ E2 _ h2 =>
    (hblock E2 h2).bind_last fun _ E3 _ h3 => hfin E3 h3

end Emit

theorem isAssignTarget_eq_isReference (e : Expr) : Emit.isAssignTarget e = e.isReference := by
  cases e <;> rfl

open Emit in
mutual

theorem reports_expr : ∀ (e : Expr) (E : Emitter) (n : Nat), E.loops.length = n →
    Reports (expr e) E e.flaws [] n
  | .lit _ l, E, n, hn => by
    simp only [expr, Expr.flaws]
    exact hn ▸ reports_literal l
  | .ident id, E, n, hn => by
    simp only [expr, Expr.flaws]
    exact reports_name_bind fun _ _ hl => reports_discard_emit (by rw [hl, hn])
  | .this _, E, n, hn => by
    simp only [expr, Expr.flaws]
    exact reports_discard_emit hn
  | .array _ es, E, n, hn => by
    simp only [expr, Expr.flaws]
    exact (reports_exprs es E n hn).bind_last fun _ _ _ h => reports_discard_emit h
  | .object _ ps, E, n, hn => by
    simp only [expr, Expr.flaws]
    exact reports_discard_emit_bind (reports_props ps _ n hn)
  | .func f, E, n, hn => by
    simp only [expr, Expr.flaws]
    exact (reports_func f true E n hn).bind_last fun _ _ _ h => reports_discard_emit h
  | .unary _ op a, E, n, hn => by
    unfold expr
    simp only [Expr.flaws]
    split
    · exact reports_name_bind fun _ _ hl => reports_discard_emit (by rw [hl, hn])
    · exact (reports_expr _ E n hn).bind_last fun _ _ _ h => reports_discard_emit h
    · refine (reports_expr _ E n hn).bind_last fun _ _ _ h => ?_
      exact reports_name_bind fun _ _ hl => reports_discard_emit (by rw [hl, h])
    · refine ((reports_expr _ E n hn).bind fun _ E1 _ h1 =>
        (reports_expr _ E1 n h1).bind_last fun _ _ _ h => reports_discard_emit h).congr
        (by simp [Expr.flaws]) (by simp)
    · exact reports_discard_emit hn
    · exact (reports_expr _ E n hn).bind_last fun _ _ _ h =>
        reports_discard_emit_bind (reports_discard_emit (by exact h))
    · exact (reports_expr _ E n hn).bind_last fun _ _ _ h => reports_discard_emit h
    · exact (reports_expr _ E n hn).bind_last fun _ _ _ h => reports_discard_emit h
    · exact (reports_expr _ E n hn).bind_last fun _ _ _ h => reports_discard_emit h
    · exact (reports_expr _ E n hn).bind_last fun _ _ _ h => reports_discard_emit h
  | .update _ op isPrefix a, E, n, hn => by
    unfold expr
    simp only [Expr.flaws]
    split
    · refine (reports_name_bind fun _ _ hl => reports_discard_emit (by rw [hl, hn])).congr ?_ (by simp)
      simp [Expr.isReference, Expr.flaws]
    · refine ((reports_expr _ E n hn).bind_last fun _ _ _ h =>
        reports_name_bind fun _ _ hl => reports_discard_emit (by rw [hl, h])).congr ?_ (by simp)
      simp [Expr.isReference, Expr.flaws]
    · refine ((reports_expr _ E n hn).bind fun _ E1 _ h1 =>
        (reports_expr _ E1 n h1).bind_last fun _ _ _ h => reports_discard_emit h).congr ?_ (by simp)
      simp [Expr.isReference, Expr.flaws]
    · refine Reports.throw_mem ?_
      cases a <;> simp_all [Expr.isReference]
  | .binary _ op l r, E, n, hn => by
    simp only [expr, Expr.flaws]
    exact ((reports_expr l E n hn).bind fun _ E1 _ h1 =>
      (reports_expr r E1 n h1).bind_last fun _ _ _ h => reports_discard_emit h).congr
      (fun _ => Iff.rfl) (by simp)
  | .logical _ op l r, E, n, hn => by
    simp only [expr, Expr.flaws]
    exact (reports_logicalCode op (reports_expr l E n hn) fun E1 h1 =>
      reports_expr r E1 n h1).congr (fun _ => Iff.rfl) (by simp)
  | .assign _ op target value, E, n, hn => by
    unfold expr
    simp only [Expr.flaws, isAssignTarget_eq_isReference]
    split
    · refine Reports.throw_mem ?_
      simp_all
    · split
      · -- a variable: its value, combined with the old one for a compound assignment
        simp only [Expr.isReference, Expr.flaws, if_true, List.nil_append]
        cases compoundInstr op with
        | none =>
          exact reports_name_bind fun _ E1 hl => (reports_expr value E1 n (by rw [hl, hn])).bind_last
            fun _ _ _ h => reports_discard_emit h
        | some i =>
          refine reports_name_bind fun _ E1 hl => reports_discard_emit_bind ?_
          exact (reports_expr value _ n (by rw [← hn, ← hl])).bind_last fun _ _ _ h =>
            reports_discard_emit_bind (reports_discard_emit (by exact h))
      · -- a member `obj.name`: the object, then the value
        simp only [Expr.isReference, Expr.flaws, if_true, List.nil_append]
        cases compoundInstr op with
        | none =>
          exact reports_name_bind fun _ E1 hl => (reports_expr _ E1 n (by rw [hl, hn])).bind_nil
            fun _ E2 _ h2 => (reports_expr value E2 n h2).bind_last fun _ _ _ h =>
              reports_discard_emit h
        | some i =>
          refine reports_name_bind fun _ E1 hl => (reports_expr _ E1 n (by rw [hl, hn])).bind_nil
            fun _ E2 _ h2 => reports_discard_emit_bind (reports_discard_emit_bind ?_)
          exact (reports_expr value _ n (by exact h2)).bind_last fun _ _ _ h =>
            reports_discard_emit_bind (reports_discard_emit (by exact h))
      · -- a member `obj[key]`: the object, the key, then the value
        simp only [Expr.isReference, Expr.flaws, if_true, List.nil_append]
        cases compoundInstr op with
        | none =>
          refine ((reports_expr _ E n hn).bind fun _ E1 _ h1 => (reports_expr _ E1 n h1).bind
            fun _ E2 _ h2 => (reports_expr value E2 n h2).bind_last fun _ _ _ h =>
              reports_discard_emit h).congr (by simp) (by simp)
        | some i =>
          refine ((reports_expr _ E n hn).bind fun _ E1 _ h1 => (reports_expr _ E1 n h1).bind
            fun _ E2 _ h2 => reports_discard_emit_bind (reports_discard_emit_bind
              ((reports_expr value _ n (by exact h2)).bind_last fun _ _ _ h =>
                reports_discard_emit_bind (reports_discard_emit (by exact h))))).congr (by simp)
                  (by simp)
      · refine Reports.throw_mem ?_
        cases target <;> simp_all [Expr.isReference]
  | .cond _ t y no, E, n, hn => by
    simp only [expr, Expr.flaws]
    exact (reports_condCode (reports_expr t E n hn) (fun E1 h1 => reports_expr y E1 n h1)
      fun E1 h1 => reports_expr no E1 n h1).congr (by simp) (by simp)
  | .call _ callee args, E, n, hn => by
    unfold expr
    simp only [Expr.flaws]
    split
    · refine ((reports_expr _ E n hn).bind fun _ E1 _ h1 => reports_discard_emit_bind
        (reports_name_bind fun _ E2 hl => reports_discard_emit_bind
          ((reports_exprs args _ n (by rw [← h1, ← hl])).bind_last fun _ _ _ h =>
            reports_discard_emit h))).congr (by simp [Expr.flaws]) (by simp)
    · refine ((reports_expr _ E n hn).bind fun _ E1 _ h1 => reports_discard_emit_bind
        ((reports_expr _ _ n (by exact h1)).bind fun _ E2 _ h2 => reports_discard_emit_bind
          ((reports_exprs args _ n (by exact h2)).bind_last fun _ _ _ h =>
            reports_discard_emit h))).congr (by simp [Expr.flaws]) (by simp)
    · exact ((reports_expr _ E n hn).bind fun _ E1 _ h1 =>
        (reports_exprs args E1 n h1).bind_last fun _ _ _ h => reports_discard_emit h).congr
        (fun _ => Iff.rfl) (by simp)
  | .new _ callee args, E, n, hn => by
    simp only [expr, Expr.flaws]
    exact ((reports_expr callee E n hn).bind fun _ E1 _ h1 =>
      (reports_exprs args E1 n h1).bind_last fun _ _ _ h => reports_discard_emit h).congr
      (fun _ => Iff.rfl) (by simp)
  | .dot _ obj prop, E, n, hn => by
    simp only [expr, Expr.flaws]
    exact (reports_expr obj E n hn).bind_last fun _ _ _ h =>
      reports_name_bind fun _ _ hl => reports_discard_emit (by rw [hl, h])
  | .index _ obj key, E, n, hn => by
    simp only [expr, Expr.flaws]
    exact ((reports_expr obj E n hn).bind fun _ E1 _ h1 =>
      (reports_expr key E1 n h1).bind_last fun _ _ _ h => reports_discard_emit h).congr
      (fun _ => Iff.rfl) (by simp)
  | .seq _ items, E, n, hn => by
    simp only [expr, Expr.flaws]
    exact reports_sequence true items E n hn
termination_by e _ _ _ => sizeOf e


theorem reports_sequence : ∀ (first : Bool) (es : List Expr) (E : Emitter) (n : Nat),
    E.loops.length = n → Reports (sequence first es) E (Expr.flawsOfList es) [] n
  | first, [], E, n, hn => by
    simp only [Emit.sequence, Expr.flawsOfList]
    split
    · exact reports_discard_emit hn
    · exact Reports.pure_unit hn
  | first, e :: es, E, n, hn => by
    simp only [Emit.sequence, Expr.flawsOfList]
    split
    · exact reports_discard_emit_bind ((reports_expr e _ n (by exact hn)).bind_nil fun _ E2 _ h2 =>
        reports_sequence false es E2 n h2)
    · exact (reports_expr e E n hn).bind_nil fun _ E2 _ h2 => reports_sequence false es E2 n h2
termination_by _ es _ _ _ => sizeOf es


theorem reports_exprs : ∀ (es : List Expr) (E : Emitter) (n : Nat), E.loops.length = n →
    Reports (exprs es) E (Expr.flawsOfList es) [] n
  | [], E, n, hn => Reports.pure_unit hn
  | e :: es, E, n, hn => by
    simp only [exprs, Expr.flawsOfList]
    exact (reports_expr e E n hn).bind_nil fun _ E1 _ h1 => reports_exprs es E1 n h1
termination_by es _ _ _ => sizeOf es


theorem reports_props : ∀ (ps : List Property) (E : Emitter) (n : Nat), E.loops.length = n →
    Reports (props ps) E (Property.flawsOfList ps) [] n
  | [], E, n, hn => Reports.pure_unit hn
  | .mk _ key v :: ps, E, n, hn => by
    simp only [props, Property.flawsOfList]
    refine (reports_expr v E n hn).bind_nil fun _ E1 _ h1 => reports_name_bind fun _ E2 hl => ?_
    exact reports_discard_emit_bind (reports_props ps _ n (by rw [← h1, ← hl]))
termination_by ps _ _ _ => sizeOf ps


theorem reports_func : ∀ (f : Func) (isExpr : Bool) (E : Emitter) (n : Nat), E.loops.length = n →
    Reports (func f isExpr) E f.flaws [] n
  | .mk _ _ _ _ stmts, isExpr, E, n, hn => by
    unfold func
    -- the body is compiled on its own, outside every loop
    have hbody := reports_body (E := Emitter.start false) stmts
      (do discard (emit .pushUndefined); discard (emit .ret)) (fun E1 h1 => reports_hoist stmts E1 0 h1) (fun E1 h1 => reports_block stmts E1 0 h1)
      (fun E1 h1 => reports_discard_emit_bind (reports_discard_emit (by exact h1))) rfl
    simp only [Func.flaws]
    split
    · next inner hrun =>
      obtain ⟨hsub, -⟩ := hbody.done _ _ hrun
      refine (hn ▸ reports_addFunction).congr (fun f => ?_) (by simp)
      simp only [List.not_mem_nil, iff_false]
      exact fun hf => nomatch hsub f (List.mem_append_right _ hf)
    · next e hrun =>
      refine Reports.throw_mem ?_
      rcases List.mem_append.mp (hbody.fault e hrun) with he | he
      · exact Stmt.mem_flawsOfList_of_mem_hoistedFlaws stmts false e he
      · exact he
termination_by f _ _ _ _ => sizeOf f


theorem reports_hoist : ∀ (ss : List Stmt) (E : Emitter) (n : Nat), E.loops.length = n →
    Reports (hoist ss) E (Stmt.hoistedFlawsOfList ss) [] n
  | [], E, n, hn => Reports.pure_unit hn
  | s :: rest, E, n, hn => by
    simp only [hoist]
    refine ((reports_hoistIn s E n hn).bind fun _ E1 _ h1 => reports_hoist rest E1 n h1).congr
      ?_ (by simp)
    simp [Stmt.hoistedFlawsOfList, Stmt.hoistedList, Stmt.hoistedFlaws]
termination_by ss _ _ _ => sizeOf ss


theorem reports_hoistIn : ∀ (s : Stmt) (E : Emitter) (n : Nat), E.loops.length = n →
    Reports (hoistIn s) E s.hoistedFlaws [] n
  | .funcDecl f, E, n, hn => by
    simp only [hoistIn]
    refine ((reports_func f false E n hn).bind_last fun _ E1 _ h1 => reports_discard_emit_bind
      (reports_name_bind fun _ _ hl => reports_discard_emit (by rw [hl]; exact h1))).congr ?_
      (by simp)
    simp [Stmt.hoistedFlaws, Stmt.hoisted]
  | .block _ body, E, n, hn => by
    simp only [hoistIn, Stmt.hoistedFlaws, Stmt.hoisted]
    exact reports_hoist body E n hn
  | .ifElse _ _ yes none, E, n, hn => by
    simp only [hoistIn]
    refine ((reports_hoistIn yes E n hn).bind_last fun _ _ _ h => Reports.pure_unit h).congr
      ?_ (by simp)
    simp [Stmt.hoistedFlaws, Stmt.hoisted]
  | .ifElse _ _ yes (some no), E, n, hn => by
    simp only [hoistIn]
    refine ((reports_hoistIn yes E n hn).bind fun _ E1 _ h1 =>
      reports_hoistIn no E1 n h1).congr ?_ (by simp)
    simp [Stmt.hoistedFlaws, Stmt.hoisted]
  | .whileLoop _ _ body, E, n, hn => by
    simp only [hoistIn, Stmt.hoistedFlaws, Stmt.hoisted]
    exact reports_hoistIn body E n hn
  | .forLoop _ _ _ _ body, E, n, hn => by
    simp only [hoistIn, Stmt.hoistedFlaws, Stmt.hoisted]
    exact reports_hoistIn body E n hn
  | .expr .., E, n, hn | .empty _, E, n, hn | .vars .., E, n, hn | .breakLoop _, E, n, hn
  | .continueLoop _, E, n, hn | .ret .., E, n, hn => by
    simp only [hoistIn, Stmt.hoistedFlaws, Stmt.hoisted, List.flatMap_nil]
    exact Reports.pure_unit hn
termination_by s _ _ _ => sizeOf s


theorem reports_block : ∀ (ss : List Stmt) (E : Emitter) (n : Nat), E.loops.length = n →
    Reports (block ss) E (Stmt.flawsOfList (n != 0) ss) (Stmt.hoistedFlawsOfList ss) n
  | [], E, n, hn => Reports.pure_unit hn
  | s :: rest, E, n, hn => by
    simp only [block, Stmt.flawsOfList]
    refine ((reports_stmt s E n hn).bind fun _ E1 _ h1 => reports_block rest E1 n h1).congr
      (fun _ => Iff.rfl) ?_
    simp [Stmt.hoistedFlawsOfList, Stmt.hoistedList, Stmt.hoistedFlaws]
termination_by ss _ _ _ => sizeOf ss


theorem reports_declarators : ∀ (ds : List Declarator) (E : Emitter) (n : Nat),
    E.loops.length = n → Reports (declarators ds) E (Declarator.flawsOfList ds) [] n
  | [], E, n, hn => Reports.pure_unit hn
  | .mk _ id none :: rest, E, n, hn => by
    simp only [declarators, Declarator.flawsOfList, Expr.flawsOfOption]
    exact (Reports.pure_unit hn).quiet_bind fun _ E1 _ h1 => reports_declarators rest E1 n h1
  | .mk _ id (some e) :: rest, E, n, hn => by
    simp only [declarators, Declarator.flawsOfList, Expr.flawsOfOption]
    exact (reports_expr e E n hn).bind_nil fun _ E1 _ h1 => reports_name_bind fun _ E2 hl =>
      reports_discard_emit_bind (reports_discard_emit_bind
        (reports_declarators rest _ n (by rw [← h1, ← hl])))
termination_by ds _ _ _ => sizeOf ds


theorem reports_forInit : ∀ (init : Option ForInit) (E : Emitter) (n : Nat), E.loops.length = n →
    Reports (forInit init) E (ForInit.flawsOfOption init) [] n
  | some (.vars _ ds), E, n, hn => by
    simp only [forInit, ForInit.flawsOfOption]
    exact reports_declarators ds E n hn
  | some (.expr e), E, n, hn => by
    simp only [forInit, ForInit.flawsOfOption]
    exact (reports_expr e E n hn).bind_last fun _ _ _ h => reports_discard_emit h
  | none, E, n, hn => Reports.pure_unit hn
termination_by i _ _ _ => sizeOf i


theorem reports_stmt : ∀ (s : Stmt) (E : Emitter) (n : Nat), E.loops.length = n →
    Reports (stmt s) E (s.flaws (n != 0)) s.hoistedFlaws n
  | .empty _, E, n, hn => by
    simp only [stmt, Stmt.flaws, Stmt.hoistedFlaws, Stmt.hoisted, List.flatMap_nil]
    exact Reports.pure_unit hn
  | .expr _ e, E, n, hn => by
    simp only [stmt, Stmt.flaws]
    exact (reports_exprStmt (reports_expr e E n hn)).congr (fun _ => Iff.rfl) (by simp)
  | .block _ body, E, n, hn => by
    simp only [stmt, Stmt.flaws]
    exact reports_block body E n hn
  | .vars _ ds, E, n, hn => by
    simp only [stmt, Stmt.flaws]
    exact (reports_declarators ds E n hn).congr (fun _ => Iff.rfl) (by simp)
  | .funcDecl f, E, n, hn => by
    -- compiled with the declarations hoisted to the top of the body, not here
    simp only [stmt, Stmt.flaws]
    exact Reports.defer (by simp [Stmt.hoistedFlaws, Stmt.hoisted]) hn
  | .ifElse _ t yes none, E, n, hn => by
    simp only [stmt, Stmt.flaws, Stmt.flawsOfOption]
    refine (reports_ifCode (reports_expr t E n hn) fun E1 h1 =>
      reports_stmt yes E1 n h1).congr (by simp) ?_
    simp [Stmt.hoistedFlaws, Stmt.hoisted]
  | .ifElse _ t yes (some no), E, n, hn => by
    simp only [stmt, Stmt.flaws, Stmt.flawsOfOption]
    refine (reports_condCode (reports_expr t E n hn) (fun E1 h1 => reports_stmt yes E1 n h1)
      fun E1 h1 => reports_stmt no E1 n h1).congr (by simp) ?_
    simp [Stmt.hoistedFlaws, Stmt.hoisted]
  | .whileLoop _ t body, E, n, hn => by
    simp only [stmt, Stmt.flaws]
    refine (reports_whileCode (reports_expr t E n hn) fun E1 h1 =>
      reports_stmt body E1 (n + 1) h1).congr (by simp) ?_
    simp [Stmt.hoistedFlaws, Stmt.hoisted]
  | .forLoop _ init test update body, E, n, hn => by
    simp only [stmt, Stmt.flaws]
    have ht : ∀ E1 : Emitter, E1.loops.length = n →
        Reports (loopTest (optExpr test)) E1 (Expr.flawsOfOption test) [] n := by
      intro E1 h1
      cases test with
      | none => exact reports_loopTest_none h1
      | some e => exact reports_loopTest_some (reports_expr e E1 n h1)
    have hu : ∀ E1 : Emitter, E1.loops.length = n + 1 →
        Reports (loopUpdate (optExpr update)) E1 (Expr.flawsOfOption update) [] (n + 1) := by
      intro E1 h1
      cases update with
      | none => exact reports_loopUpdate_none h1
      | some e => exact reports_loopUpdate_some (reports_expr e E1 (n + 1) h1)
    refine (reports_forCode (reports_forInit init E n hn) ht
      (fun E1 h1 => reports_stmt body E1 (n + 1) h1) hu).congr
      (fun _ => by simp only [List.mem_append]; tauto) ?_
    simp [Stmt.hoistedFlaws, Stmt.hoisted]
  | .breakLoop _, E, n, hn => by
    simp only [stmt, Stmt.flaws]
    refine (hn ▸ reports_loopExit true).congr (by simp) (by simp)
  | .continueLoop _, E, n, hn => by
    simp only [stmt, Stmt.flaws]
    refine (hn ▸ reports_loopExit false).congr (by simp) (by simp)
  | .ret _ none, E, n, hn => by
    simp only [stmt, Stmt.flaws, optExpr, Expr.flawsOfOption]
    exact reports_retCode_none hn
  | .ret _ (some e), E, n, hn => by
    simp only [stmt, Stmt.flaws, optExpr, Expr.flawsOfOption]
    exact (reports_retCode_some (reports_expr e E n hn)).congr (fun _ => Iff.rfl) (by simp)

termination_by s _ _ _ => sizeOf s

end

/-- The code of a script, before it is packed: what `Program.compile` runs. -/
theorem Program.compile_eq_error_iff (p : Program) (f : Fault) :
    p.compile = .error f ↔ (do
      Emit.declareVars (varNames p.body)
      Emit.hoist p.body
      Emit.block p.body
      discard (Emit.emit .halt)).run (Emitter.start true) = .error f := by
  unfold Program.compile
  cases (do
    Emit.declareVars (varNames p.body)
    Emit.hoist p.body
    Emit.block p.body
    discard (Emit.emit .halt) : Emit Unit).run (Emitter.start true) with
  | error e => simp only [bind, Except.bind, Except.error.injEq]
  | ok r => exact ⟨fun h => (nomatch h), fun h => (nomatch h)⟩

theorem compile_fails_iff_flawed (p : Program) :
    ((∃ f, p.compile = .error f) ↔ p.flaws ≠ []) ∧
      ∀ f, p.compile = .error f → f ∈ p.flaws ∧ f.IsFlaw := by
  obtain ⟨hfault, hdone⟩ := Emit.reports_body (E := Emitter.start true) p.body
    (discard (Emit.emit .halt)) (fun E1 h1 => reports_hoist p.body E1 0 h1)
    (fun E1 h1 => reports_block p.body E1 0 h1) (fun _ h1 => Emit.reports_discard_emit h1) rfl
  simp only [Program.compile_eq_error_iff]
  generalize StateT.run _ (Emitter.start true) = r at hfault hdone ⊢
  -- a fault of a hoisted declaration is a fault of the statement that holds it
  have hmem : ∀ f, r = .error f → f ∈ p.flaws := fun f hf => by
    rcases List.mem_append.mp (hfault f hf) with hf | hf
    · exact Stmt.mem_flawsOfList_of_mem_hoistedFlaws p.body false f hf
    · exact hf
  refine ⟨⟨fun ⟨f, hf⟩ hnil => by simpa [hnil] using hmem f hf, fun hne => ?_⟩,
    fun f hf => ⟨hmem f hf, Stmt.isFlaw_of_mem_flawsOfList false p.body f (hmem f hf)⟩⟩
  cases r with
  | error f => exact ⟨f, rfl⟩
  | ok r =>
    obtain ⟨hsub, -⟩ := hdone r.1 r.2 rfl
    exact absurd (List.eq_nil_iff_forall_not_mem.mpr fun f hf =>
      nomatch hsub f (List.mem_append_right _ hf)) hne

end EcmaLite
