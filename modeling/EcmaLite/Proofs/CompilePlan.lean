import EcmaLite.Proofs.EmitControl

/-!
# Compiled code has a stack plan

Every script the compiler accepts compiles to well formed code (`Program.compile_wellFormed`):
each table index in range, each jump inside the code, a stack plan, `halt` at the end, and the
same for every function literal inside, whose code ends with `return undefined`.

The proof follows the compiler function by function (`expr_emits` to `stmt_emits`): each appends
a planned stretch, an expression from any shape `s` to `s` with one more value, a statement from
an empty stack to an empty stack. The stretches of a body are glued by `Emitted.trans`, and the
last instructions close the plan (`Code.wellFormed_of_emitted`). A function literal is compiled
on its own emitter; that its code is well formed is what lets it into the function table
(`func_adds`).
-/

namespace EcmaLite

namespace Instr

variable {E : Emitter}

/-- The one index an instruction has, when it is in range. -/
theorem forall_of_some {o : Option Nat} {k n : Nat} (h : o = some k) (hk : k < n) :
    ∀ k', o = some k' → k' < n := by
  intro k' hk'
  rw [h] at hk'
  cases hk'
  exact hk

/-- An instruction that names entry `k` of the name table and no other table. -/
theorem RefsIn.of_name {i : Instr} {k : Nat} (hc : i.constRef? = none) (hn : i.nameRef? = some k)
    (hf : i.funcRef? = none) (hk : k < E.names.size) : i.RefsIn E :=
  ⟨forall_of_none hc, forall_of_some hn hk, forall_of_none hf⟩

/-- An instruction that names entry `k` of the constant table and no other table. -/
theorem RefsIn.of_const {i : Instr} {k : Nat} (hc : i.constRef? = some k) (hn : i.nameRef? = none)
    (hf : i.funcRef? = none) (hk : k < E.consts.size) : i.RefsIn E :=
  ⟨forall_of_some hc hk, forall_of_none hn, forall_of_none hf⟩

/-- An instruction that names entry `k` of the function table and no other table. -/
theorem RefsIn.of_func {i : Instr} {k : Nat} (hc : i.constRef? = none) (hn : i.nameRef? = none)
    (hf : i.funcRef? = some k) (hk : k < E.funcs.size) : i.RefsIn E :=
  ⟨forall_of_none hc, forall_of_none hn, forall_of_some hf hk⟩

end Instr

namespace Emitter

variable {E E' : Emitter}

/-- A step that only grows the tables, with every function literal in them well formed,
extends the emitter. -/
theorem Extends.of_tables (hE : E.Ok) (hinstrs : E'.instrs = E.instrs)
    (hloops : E'.loops = E.loops) (hscript : E'.isScript = E.isScript)
    (hc : E.consts.size ≤ E'.consts.size) (hn : E.names.size ≤ E'.names.size)
    (hf : E.funcs.size ≤ E'.funcs.size) (hcode : ∀ c ∈ E'.funcs, c.WellFormed false) :
    E.Extends E' := by
  obtain ⟨is, cs, ns, fs, ls, sc⟩ := E'
  dsimp only at hinstrs hloops hscript
  subst hinstrs hloops hscript
  exact
    { ok := ⟨fun i hi k hk => Nat.lt_of_lt_of_le (hE.consts i hi k hk) hc,
        fun i hi k hk => Nat.lt_of_lt_of_le (hE.names i hi k hk) hn,
        fun i hi k hk => Nat.lt_of_lt_of_le (hE.funcs i hi k hk) hf, hE.targets, hE.exits, hcode⟩
      grow := ⟨Nat.le_refl _, fun _ hj => hj, fun _ hj => .inl hj⟩
      kept := fun _ _ => rfl
      consts := hc
      names := hn
      funcs := hf
      depth := rfl
      outer := rfl
      isScript := rfl }

end Emitter

namespace Emit

variable {E E' : Emitter} {n : String} {k : Nat}

/-- Looking a name up only grows the name table. -/
theorem name_extends (hE : E.Ok) (h : (name n).run E = .ok (k, E')) :
    E.Extends E' ∧ E'.instrs = E.instrs ∧ E'.loops = E.loops := by
  obtain ⟨-, hle, hE'⟩ := name_run h
  rw [hE']
  exact ⟨Emitter.Extends.of_tables hE rfl rfl rfl (Nat.le_refl _) hle (Nat.le_refl _) hE.code,
    rfl, rfl⟩

/-- Adding a constant only grows the constant table. -/
theorem const_extends (hE : E.Ok) {c : Const} :
    E.Extends { E with consts := E.consts.push c } :=
  Emitter.Extends.of_tables hE rfl rfl rfl (by simp) (Nat.le_refl _) (Nat.le_refl _) hE.code

end Emit

namespace EmitsAt

variable {E : Emitter} {e x : StackShape → StackShape}

/-- A step that looks a name up, then a stretch that may use its index. -/
theorem name_bind {n : String} {g : Nat → Emit Unit} (hE : E.Ok)
    (hg : ∀ k E1, E.Extends E1 → k < E1.names.size → EmitsAt E1 (g k) e x) :
    EmitsAt E (Emit.name n >>= g) e x :=
  bind_silent (fun _ _ h => Emit.name_extends hE h) fun k _ h =>
    hg k _ (Emit.name_extends hE h).1 (Emit.name_run h).1

/-- A step that adds a constant, then a stretch that may use its index. -/
theorem const_bind {c : Const} {g : Nat → Emit Unit} (hE : E.Ok)
    (hg : ∀ k E1, E.Extends E1 → k < E1.consts.size → EmitsAt E1 (g k) e x) :
    EmitsAt E (Emit.const c >>= g) e x := by
  refine bind_silent (fun _ _ h => ?_) fun k _ h => ?_
  · rw [Emit.run_const] at h
    cases h
    exact ⟨Emit.const_extends hE, rfl, rfl⟩
  · rw [Emit.run_const] at h
    cases h
    exact hg _ _ (Emit.const_extends hE) (by simp)

/-- Writing an instruction that takes values and jumps nowhere: the shape it leaves is what it
makes of the shape it finds. -/
theorem emit_plain (hE : E.Ok) {i : Instr} (hrefs : i.RefsIn E) (htarget : i.target? = none)
    (hpops : ∀ s, i.pops ≤ (e s).length) (hinit : ∀ k, i ≠ .initProp k) :
    EmitsAt E (discard (Emit.emit i)) e fun s => i.after (e s) :=
  emit hE hrefs htarget (fun s => ⟨hpops s, fun k hk => absurd hk (hinit k)⟩) fun _ => rfl

/-- Writing an instruction that names entry `k` of the name table. -/
theorem emit_named (hE : E.Ok) {i : Instr} {k : Nat} (hc : i.constRef? = none)
    (hn : i.nameRef? = some k) (hf : i.funcRef? = none) (hk : k < E.names.size)
    (htarget : i.target? = none) (hpops : ∀ s, i.pops ≤ (e s).length)
    (hinit : ∀ k, i ≠ .initProp k) :
    EmitsAt E (discard (Emit.emit i)) e fun s => i.after (e s) :=
  emit_plain hE (Instr.RefsIn.of_name hc hn hf hk) htarget hpops hinit

end EmitsAt

/-! ## Whole bodies -/

/-- The instructions a body ends with name no table entry and jump nowhere. -/
theorem mem_ending {b : Bool} {i : Instr} (hi : i ∈ ending b) :
    i.constRef? = none ∧ i.nameRef? = none ∧ i.funcRef? = none ∧ i.target? = none := by
  cases b <;> simp only [ending, List.mem_cons, List.not_mem_nil, or_false] at hi <;>
    rcases hi with rfl | rfl <;> exact ⟨rfl, rfl, rfl, rfl⟩

/-- A body that runs from an empty stack to an empty stack, followed by the instructions a body
ends with, is well formed code, given that the function literals compiled into it are. -/
theorem Code.wellFormed_of_emitted {b : Bool} {E : Emitter} {c : Code}
    (h : Emitted (Emitter.start b) E (fun _ => []) fun _ => [])
    (hinstrs : c.instrs.toList = E.instrs.toList ++ ending b) (hconsts : c.consts = E.consts)
    (hnames : c.names = E.names) (hfuncs : c.funcs = E.funcs) : c.WellFormed b := by
  obtain ⟨hx, hp⟩ := h
  obtain ⟨a, ha0, ham, hpa⟩ := hp []
  have hok := hx.ok
  -- a body opens no loop of its own, so it leaves no exit
  have hnoexit : ∀ j, ¬ (Emitter.start b).NewExit E j := by
    rintro j ⟨hj, -⟩
    have hloops : E.loops = [] := List.eq_nil_of_length_eq_zero hx.depth
    simp [Emitter.exits, hloops] at hj
  have hmem : ∀ i, i ∈ c.instrs → i ∈ E.instrs ∨ i ∈ ending b := by
    intro i hi
    rw [← Array.mem_toList_iff, hinstrs, List.mem_append, Array.mem_toList_iff] at hi
    exact hi
  have hsize : c.instrs.size = E.instrs.size + (ending b).length := by
    rw [← Array.length_toList, hinstrs, List.length_append, Array.length_toList]
  have hget : ∀ n, c.instrs[n]? =
      if n < E.instrs.size then E.instrs[n]? else (ending b)[n - E.instrs.size]? := by
    intro n
    rw [← Array.getElem?_toList, hinstrs, List.getElem?_append]
    simp only [Array.length_toList, Array.getElem?_toList]
  refine .intro ⟨fun i hi k hk => ?_, fun i hi k hk => ?_, fun i hi k hk => ?_,
    fun i hi t ht => ?_, ⟨fun n => if n ≤ E.instrs.size then a n else [.any], ?_, ?_⟩, ?_⟩
    fun f hf => hok.code f (hfuncs ▸ hf)
  · rw [hconsts]
    rcases hmem i hi with hi | hi
    · exact hok.consts i hi k hk
    · rw [(mem_ending hi).1] at hk
      cases hk
  · rw [hnames]
    rcases hmem i hi with hi | hi
    · exact hok.names i hi k hk
    · rw [(mem_ending hi).2.1] at hk
      cases hk
  · rw [hfuncs]
    rcases hmem i hi with hi | hi
    · exact hok.funcs i hi k hk
    · rw [(mem_ending hi).2.2.1] at hk
      cases hk
  · -- a jump of the body lands in the body or at its end, before the last instructions
    rcases hmem i hi with hi | hi
    · have hend : 0 < (ending b).length := by cases b <;> decide
      rw [hsize]
      exact Nat.lt_of_le_of_lt (hok.targets i hi t ht) (Nat.lt_add_of_pos_right hend)
    · rw [(mem_ending hi).2.2.2] at ht
      cases ht
  · show (if 0 ≤ E.instrs.size then a 0 else [.any]) = []
    rw [if_pos (Nat.zero_le _)]
    exact ha0
  · intro n i hi
    rw [hget] at hi
    split at hi
    · next hn =>
      obtain ⟨i', hi', hplan, htgt⟩ := hpa.step n (Nat.zero_le _) hn (hnoexit n)
      rw [hi'] at hi
      cases hi
      refine hplan.congr (if_pos (Nat.le_of_lt hn)) (fun _ => if_pos hn) fun t ht => ?_
      exact if_pos (htgt t ht).2
    · next hn =>
      -- the last instructions, after the body's end where the stack is empty
      obtain ⟨d, rfl⟩ : ∃ d, n = E.instrs.size + d := ⟨n - E.instrs.size, by omega⟩
      rw [Nat.add_sub_cancel_left] at hi
      have hend : (if E.instrs.size ≤ E.instrs.size then a E.instrs.size else [.any]) = [] := by
        rw [if_pos (Nat.le_refl _), ham]
      have hpast : ∀ d, (if E.instrs.size + (d + 1) ≤ E.instrs.size then
          a (E.instrs.size + (d + 1)) else [.any]) = [.any] := fun d => if_neg (by omega)
      -- `halt` ends a script; `pushUndefined` and `ret` end a function body
      cases b with
      | true =>
        rcases d with _ | d
        · cases hi
          exact ⟨⟨Nat.zero_le _, fun _ => Instr.noConfusion⟩, Bool.noConfusion,
            Instr.forall_of_none rfl⟩
        · cases hi
      | false =>
        rcases d with _ | _ | d
        · cases hi
          refine ⟨⟨Nat.zero_le _, fun _ => Instr.noConfusion⟩, fun _ => ?_,
            Instr.forall_of_none rfl⟩
          show StackShape.Weaker (Instr.after .pushUndefined _) _
          rw [Nat.add_zero, hend, hpast 0]
          exact StackShape.Weaker.refl _
        · cases hi
          refine ⟨⟨?_, fun _ => Instr.noConfusion⟩, Bool.noConfusion,
            Instr.forall_of_none rfl⟩
          show Instr.pops .ret ≤ List.length _
          rw [hpast 0]
          exact Nat.le_refl _
        · cases hi
  · rw [hinstrs]
    exact List.suffix_append _ _

namespace EmitsAt

variable {E : Emitter} {e x y : StackShape → StackShape}

theorem throw_unit {f : Fault} : EmitsAt E (throw f : Emit Unit) e x :=
  fun _ h => by cases h

/-- The same stretch, its end shape written another way. -/
theorem exit_eq {m : Emit Unit} (h : EmitsAt E m e x) (hx : ∀ s, x s = y s) :
    EmitsAt E m e y := by
  rw [← funext hx]
  exact h

/-- An operator of two operands. -/
theorem emit_binary (hE : E.Ok) (op : BinaryOp) {a b : Slot} :
    EmitsAt E (discard (Emit.emit (Emit.binaryInstr op))) (fun s => a :: b :: e s)
      fun s => .any :: e s := by
  cases op <;> exact emit_plain hE (.of_none rfl rfl rfl) rfl
    (fun _ => by simp [Instr.pops, Emit.binaryInstr]) (fun _ => Instr.noConfusion)

/-- The arithmetic of a compound assignment. -/
theorem emit_compound (hE : E.Ok) {op : AssignOp} {i : Instr}
    (hi : Emit.compoundInstr op = some i) :
    EmitsAt E (discard (Emit.emit i)) (fun s => .any :: .any :: e s) fun s => .any :: e s := by
  cases op <;> simp only [Emit.compoundInstr, reduceCtorEq, Option.some.injEq] at hi <;>
    subst hi <;>
    exact emit_plain hE (.of_none rfl rfl rfl) rfl (fun _ => by simp [Instr.pops])
      (fun _ => Instr.noConfusion)

/-- An instruction that takes the `c` values on top and the values `t` below them, and leaves
one: building an array, a call, a method call. -/
theorem emit_args (hE : E.Ok) {i : Instr} {c : Nat} {t : List Slot} (hrefs : i.RefsIn E)
    (htarget : i.target? = none) (hpops : i.pops = c + t.length) (hpushed : i.pushed = [.any])
    (hinit : ∀ k, i ≠ .initProp k) :
    EmitsAt E (discard (Emit.emit i)) (fun s => List.replicate c .any ++ (t ++ e s))
      fun s => .any :: e s := by
  refine emit hE hrefs htarget (fun s => ⟨?_, fun k hk => absurd hk (hinit k)⟩) fun s => ?_
  · simp [hpops]
  · simp only [Instr.after, hpops, hpushed]
    rw [← List.drop_drop, List.drop_left' (List.length_replicate ..), List.drop_left]
    rfl

end EmitsAt

namespace Emit

variable {E : Emitter}

/-- A literal pushes its value. -/
theorem literal_emits (l : Lit) (hE : E.Ok) :
    EmitsAt E (literal l) (fun s => s) fun s => .any :: s := by
  cases l with
  | null =>
    exact EmitsAt.emit_plain hE (.of_none rfl rfl rfl) rfl (fun _ => Nat.zero_le _)
      (fun _ => Instr.noConfusion)
  | bool b =>
    cases b <;>
      exact EmitsAt.emit_plain hE (.of_none rfl rfl rfl) rfl (fun _ => Nat.zero_le _)
        (fun _ => Instr.noConfusion)
  | str s =>
    exact EmitsAt.const_bind hE fun k E1 h1 hk => EmitsAt.emit_plain h1.ok
      (.of_const rfl rfl rfl hk) rfl (fun _ => Nat.zero_le _) (fun _ => Instr.noConfusion)
  | num n =>
    exact EmitsAt.const_bind hE fun k E1 h1 hk => EmitsAt.emit_plain h1.ok
      (.of_const rfl rfl rfl hk) rfl (fun _ => Nat.zero_le _) (fun _ => Instr.noConfusion)

/-- Declaring names leaves the stack as it is. -/
theorem declareVars_emits (ns : List String) (hE : E.Ok) :
    EmitsAt E (declareVars ns) (fun s => s) fun s => s := by
  induction ns generalizing E with
  | nil => exact EmitsAt.pure_unit hE
  | cons n rest ih =>
    simp only [declareVars]
    exact EmitsAt.name_bind hE fun k E1 h1 hk =>
      (EmitsAt.emit_named h1.ok (i := .declareVar k) rfl rfl rfl hk rfl (fun _ => Nat.zero_le _)
        (fun _ => Instr.noConfusion)).seq fun E2 h2 => ih h2.ok

end Emit


theorem Emitter.start_ok (b : Bool) : (Emitter.start b).Ok where
  consts _ h := absurd h (Array.not_mem_empty _)
  names _ h := absurd h (Array.not_mem_empty _)
  funcs _ h := absurd h (Array.not_mem_empty _)
  targets _ h := absurd h (Array.not_mem_empty _)
  exits _ h := absurd h List.not_mem_nil
  code _ h := absurd h (Array.not_mem_empty _)

/-- A body: its declarations, the closures of its function declarations and its statements run
from an empty stack to an empty stack, and what comes after them runs from there. -/
theorem Emit.body_emitted {b : Bool} {ss : List Stmt} {fin : Emit Unit} {E' : Emitter}
    (hhoist : Emits (hoist ss) (fun _ => []) fun _ => [])
    (hblock : Emits (block ss) (fun _ => []) fun _ => [])
    (h : (do
      declareVars (varNames ss)
      hoist ss
      block ss
      fin : Emit Unit).run (Emitter.start b) = .ok ((), E')) :
    ∃ E3, Emitted (Emitter.start b) E3 (fun _ => []) (fun _ => []) ∧ fin.run E3 = .ok ((), E') := by
  obtain ⟨⟨⟩, E1, hr1, hr⟩ := run_bind_ok h
  obtain ⟨⟨⟩, E2, hr2, hr⟩ := run_bind_ok hr
  obtain ⟨⟨⟩, E3, hr3, hfin⟩ := run_bind_ok hr
  have he1 := declareVars_emits (varNames ss) (Emitter.start_ok b) E1 hr1
  have he2 := hhoist E1 he1.1.ok E2 hr2
  have he3 := hblock E2 he2.1.ok E3 hr3
  exact ⟨E3, ((he1.comp fun _ => []).trans he2).trans he3, hfin⟩

open Emit in
mutual

theorem expr_emits : ∀ (e : Expr) (E : Emitter), E.Ok →
    EmitsAt E (expr e) (fun s => s) fun s => .any :: s
  | .lit _ l, E, hE => by
    simp only [expr]
    exact literal_emits l hE
  | .ident id, E, hE => by
    simp only [expr]
    exact EmitsAt.name_bind hE fun k E1 h1 hk =>
      EmitsAt.emit_named h1.ok rfl rfl rfl hk rfl (fun _ => Nat.zero_le _)
        (fun _ => Instr.noConfusion)
  | .this _, E, hE => by
    simp only [expr]
    exact EmitsAt.emit_plain hE (.of_none rfl rfl rfl) rfl (fun _ => Nat.zero_le _)
      (fun _ => Instr.noConfusion)
  | .array _ es, E, hE => by
    simp only [expr]
    exact (exprs_emits es E hE).seq fun E1 h1 => EmitsAt.emit_args h1.ok (t := [])
      (.of_none rfl rfl rfl) rfl rfl rfl (fun _ => Instr.noConfusion)
  | .object _ ps, E, hE => by
    simp only [expr]
    -- the object is known to be one while its entries go in, and is then any value
    refine EmitsAt.weaken ((EmitsAt.emit_plain hE (i := .newObject) (.of_none rfl rfl rfl) rfl
      (fun _ => Nat.zero_le _)
        (fun _ => Instr.noConfusion)).seq fun E1 h1 => props_emits ps E1 h1.ok)
      (fun s => StackShape.weaker_any .obj s) fun E' hrun => ?_
    obtain ⟨⟨⟩, E1, hrun1, hrun2⟩ := run_bind_ok hrun
    rw [run_discard_emit] at hrun1
    cases hrun1
    have hx :=
      (props_emits ps _ (hE.push (i := .newObject) (.of_none rfl rfl rfl)
        (Instr.forall_of_none rfl)) E' hrun2).1
    exact Nat.lt_of_lt_of_le (by simp) hx.size
  | .func f, E, hE => by
    simp only [expr]
    refine EmitsAt.bind_silent (fun k E1 h => ?_) fun k E1 h => ?_
    · obtain ⟨hx, hinstrs, hloops, -⟩ := func_adds f true E hE k E1 h
      exact ⟨hx, hinstrs, hloops⟩
    · obtain ⟨hx, -, -, hk⟩ := func_adds f true E hE k E1 h
      exact EmitsAt.emit_plain hx.ok (.of_func rfl rfl rfl hk) rfl
        (fun _ => Nat.zero_le _) (fun _ => Instr.noConfusion)
  | .unary _ op a, E, hE => by
    unfold expr
    split
    · exact EmitsAt.name_bind hE fun k E1 h1 hk =>
        EmitsAt.emit_named h1.ok rfl rfl rfl hk rfl (fun _ => Nat.zero_le _)
          (fun _ => Instr.noConfusion)
    · exact (expr_emits _ E hE).seq fun E1 h1 =>
        EmitsAt.emit_plain h1.ok (.of_none rfl rfl rfl) rfl (fun _ => by simp [Instr.pops])
          (fun _ => Instr.noConfusion)
    · exact (expr_emits _ E hE).seq fun E1 h1 => EmitsAt.name_bind h1.ok fun k E2 h2 hk =>
        EmitsAt.emit_named h2.ok rfl rfl rfl hk rfl (fun _ => by simp [Instr.pops])
          (fun _ => Instr.noConfusion)
    · exact (expr_emits _ E hE).seq fun E1 h1 =>
        ((expr_emits _ E1 h1.ok).comp fun s => .any :: s).seq fun E2 h2 =>
          EmitsAt.emit_plain h2.ok (.of_none rfl rfl rfl) rfl (fun _ => by simp [Instr.pops])
            (fun _ => Instr.noConfusion)
    · exact EmitsAt.emit_plain hE (.of_none rfl rfl rfl) rfl (fun _ => Nat.zero_le _)
        (fun _ => Instr.noConfusion)
    · exact (expr_emits _ E hE).seq fun E1 h1 =>
        (EmitsAt.emit_plain h1.ok (i := .pop) (.of_none rfl rfl rfl) rfl
          (fun _ => by simp [Instr.pops]) (fun _ => Instr.noConfusion)).seq fun E2 h2 =>
          EmitsAt.emit_plain h2.ok (.of_none rfl rfl rfl) rfl (fun _ => Nat.zero_le _)
            (fun _ => Instr.noConfusion)
    all_goals
      exact (expr_emits _ E hE).seq fun E1 h1 =>
        EmitsAt.emit_plain h1.ok (.of_none rfl rfl rfl) rfl (fun _ => by simp [Instr.pops])
          (fun _ => Instr.noConfusion)
  | .update _ op isPrefix a, E, hE => by
    unfold expr
    split
    · exact EmitsAt.name_bind hE fun k E1 h1 hk =>
        EmitsAt.emit_named h1.ok rfl rfl rfl hk rfl (fun _ => Nat.zero_le _)
          (fun _ => Instr.noConfusion)
    · exact (expr_emits _ E hE).seq fun E1 h1 => EmitsAt.name_bind h1.ok fun k E2 h2 hk =>
        EmitsAt.emit_named h2.ok rfl rfl rfl hk rfl (fun _ => by simp [Instr.pops])
          (fun _ => Instr.noConfusion)
    · exact (expr_emits _ E hE).seq fun E1 h1 =>
        ((expr_emits _ E1 h1.ok).comp fun s => .any :: s).seq fun E2 h2 =>
          EmitsAt.emit_plain h2.ok (.of_none rfl rfl rfl) rfl (fun _ => by simp [Instr.pops])
            (fun _ => Instr.noConfusion)
    · exact EmitsAt.throw_unit
  | .binary _ op l r, E, hE => by
    simp only [expr]
    exact (expr_emits l E hE).seq fun E1 h1 =>
      ((expr_emits r E1 h1.ok).comp fun s => .any :: s).seq fun E2 h2 =>
        EmitsAt.emit_binary h2.ok op
  | .logical _ op l r, E, hE => by
    simp only [expr]
    exact logicalCode_emits op (fun E1 h1 => expr_emits l E1 h1) (fun E1 h1 => expr_emits r E1 h1)
      E hE
  | .cond _ t y n, E, hE => by
    simp only [expr]
    exact condCode_emits (fun E1 h1 => expr_emits t E1 h1) (fun E1 h1 => expr_emits y E1 h1)
      (fun E1 h1 => expr_emits n E1 h1) E hE
  | .new _ callee args, E, hE => by
    simp only [expr]
    exact (expr_emits callee E hE).seq fun E1 h1 =>
      ((exprs_emits args E1 h1.ok).comp fun s => .any :: s).seq fun E2 h2 =>
        EmitsAt.emit_args h2.ok (t := [.any]) (.of_none rfl rfl rfl) rfl rfl rfl
          (fun _ => Instr.noConfusion)
  | .dot _ obj prop, E, hE => by
    simp only [expr]
    exact (expr_emits obj E hE).seq fun E1 h1 => EmitsAt.name_bind h1.ok fun k E2 h2 hk =>
      EmitsAt.emit_named h2.ok rfl rfl rfl hk rfl (fun _ => by simp [Instr.pops])
        (fun _ => Instr.noConfusion)
  | .index _ obj key, E, hE => by
    simp only [expr]
    exact (expr_emits obj E hE).seq fun E1 h1 =>
      ((expr_emits key E1 h1.ok).comp fun s => .any :: s).seq fun E2 h2 =>
        EmitsAt.emit_plain h2.ok (.of_none rfl rfl rfl) rfl (fun _ => by simp [Instr.pops])
          (fun _ => Instr.noConfusion)
  | .seq _ items, E, hE => by
    simp only [expr]
    cases items with
    | nil =>
      exact EmitsAt.emit_plain hE (.of_none rfl rfl rfl) rfl (fun _ => Nat.zero_le _)
        (fun _ => Instr.noConfusion)
    | cons e rest =>
      simp only [Emit.sequence, Bool.not_true]
      exact (expr_emits e E hE).seq fun E1 h1 => sequence_emits rest E1 h1.ok
  | .assign _ op target value, E, hE => by
    unfold expr
    split
    · exact EmitsAt.throw_unit
    · split
      · -- a variable: its value, combined with the old one for a compound assignment
        refine EmitsAt.name_bind hE fun k E1 h1 hk => ?_
        dsimp only
        split
        · next i hi =>
          exact (EmitsAt.emit_named h1.ok (i := .getVar k) rfl rfl rfl hk rfl
            (fun _ => Nat.zero_le _) (fun _ => Instr.noConfusion)).seq fun E2 h2 =>
            ((expr_emits value E2 h2.ok).comp fun s => .any :: s).seq fun E3 h3 =>
              (EmitsAt.emit_compound h3.ok hi).seq fun E4 h4 =>
                EmitsAt.emit_named h4.ok rfl rfl rfl (Nat.lt_of_lt_of_le hk
                  ((h2.trans (h3.trans h4)).names)) rfl (fun _ => by simp [Instr.pops])
                    (fun _ => Instr.noConfusion)
        · exact (expr_emits value E1 h1.ok).seq fun E2 h2 =>
            EmitsAt.emit_named h2.ok rfl rfl rfl (Nat.lt_of_lt_of_le hk h2.names) rfl
              (fun _ => by simp [Instr.pops]) (fun _ => Instr.noConfusion)
      · -- a member `obj.name`: the object, then the value
        refine EmitsAt.name_bind hE fun k E1 h1 hk => (expr_emits _ E1 h1.ok).seq fun E2 h2 => ?_
        dsimp only
        split
        · next i hi =>
          exact (EmitsAt.emit_plain h2.ok (i := .dup) (.of_none rfl rfl rfl) rfl
            (fun _ => by simp [Instr.pops]) (fun _ => Instr.noConfusion)).seq fun E3 h3 =>
            (EmitsAt.emit_named h3.ok (i := .getProp k) rfl rfl rfl
              (Nat.lt_of_lt_of_le hk (h2.trans h3).names) rfl
              (fun _ => by simp [Instr.pops, Instr.after, Instr.pushed])
                (fun _ => Instr.noConfusion)).seq fun E4 h4 =>
              ((expr_emits value E4 h4.ok).comp fun s => .any :: .any :: s).seq fun E5 h5 =>
                (EmitsAt.emit_compound h5.ok hi).seq fun E6 h6 =>
                  EmitsAt.emit_named h6.ok rfl rfl rfl (Nat.lt_of_lt_of_le hk
                    (h2.trans (h3.trans (h4.trans (h5.trans h6)))).names) rfl
                    (fun _ => by simp [Instr.pops]) (fun _ => Instr.noConfusion)
        · exact ((expr_emits value E2 h2.ok).comp fun s => .any :: s).seq fun E3 h3 =>
            EmitsAt.emit_named h3.ok rfl rfl rfl (Nat.lt_of_lt_of_le hk (h2.trans h3).names) rfl
              (fun _ => by simp [Instr.pops]) (fun _ => Instr.noConfusion)
      · -- a member `obj[key]`: the object, the key, then the value
        refine (expr_emits _ E hE).seq fun E1 h1 =>
          ((expr_emits _ E1 h1.ok).comp fun s => .any :: s).seq fun E2 h2 => ?_
        dsimp only
        split
        · next i hi =>
          exact (EmitsAt.emit_plain h2.ok (i := .dup2) (.of_none rfl rfl rfl) rfl
            (fun _ => by simp [Instr.pops]) (fun _ => Instr.noConfusion)).seq fun E3 h3 =>
            (EmitsAt.emit_plain h3.ok (i := .getElem) (.of_none rfl rfl rfl) rfl
              (fun _ => by simp [Instr.pops, Instr.after, Instr.pushed])
                (fun _ => Instr.noConfusion)).seq fun E4 h4 =>
              ((expr_emits value E4 h4.ok).comp fun s => .any :: .any :: .any :: s).seq
                fun E5 h5 => (EmitsAt.emit_compound h5.ok hi).seq fun E6 h6 =>
                  EmitsAt.emit_plain h6.ok (.of_none rfl rfl rfl) rfl
                    (fun _ => by simp [Instr.pops]) (fun _ => Instr.noConfusion)
        · exact ((expr_emits value E2 h2.ok).comp fun s => .any :: .any :: s).seq fun E3 h3 =>
            EmitsAt.emit_plain h3.ok (.of_none rfl rfl rfl) rfl (fun _ => by simp [Instr.pops])
              (fun _ => Instr.noConfusion)
      · exact EmitsAt.throw_unit
  | .call _ callee args, E, hE => by
    unfold expr
    split
    · -- a method `obj.name(args)`: the receiver stays under the function
      exact (expr_emits _ E hE).seq fun E1 h1 =>
        (EmitsAt.emit_plain h1.ok (i := .dup) (.of_none rfl rfl rfl) rfl
          (fun _ => by simp [Instr.pops]) (fun _ => Instr.noConfusion)).seq fun E2 h2 =>
          EmitsAt.name_bind h2.ok fun k E3 h3 hk =>
            (EmitsAt.emit_named h3.ok (i := .getProp k) rfl rfl rfl hk rfl
              (fun _ => by simp [Instr.pops, Instr.after, Instr.pushed])
                (fun _ => Instr.noConfusion)).seq fun E4 h4 =>
              ((exprs_emits args E4 h4.ok).comp fun s => .any :: .any :: s).seq fun E5 h5 =>
                EmitsAt.emit_args h5.ok (t := [.any, .any]) (.of_none rfl rfl rfl) rfl rfl rfl
                  (fun _ => Instr.noConfusion)
    · -- a method `obj[key](args)`
      exact (expr_emits _ E hE).seq fun E1 h1 =>
        (EmitsAt.emit_plain h1.ok (i := .dup) (.of_none rfl rfl rfl) rfl
          (fun _ => by simp [Instr.pops]) (fun _ => Instr.noConfusion)).seq fun E2 h2 =>
          ((expr_emits _ E2 h2.ok).comp fun s => .any :: .any :: s).seq fun E3 h3 =>
            (EmitsAt.emit_plain h3.ok (i := .getElem) (.of_none rfl rfl rfl) rfl
              (fun _ => by simp [Instr.pops]) (fun _ => Instr.noConfusion)).seq fun E4 h4 =>
              ((exprs_emits args E4 h4.ok).comp fun s => .any :: .any :: s).seq fun E5 h5 =>
                EmitsAt.emit_args h5.ok (t := [.any, .any]) (.of_none rfl rfl rfl) rfl rfl rfl
                  (fun _ => Instr.noConfusion)
    · exact (expr_emits _ E hE).seq fun E1 h1 =>
        ((exprs_emits args E1 h1.ok).comp fun s => .any :: s).seq fun E2 h2 =>
          EmitsAt.emit_args h2.ok (t := [.any]) (.of_none rfl rfl rfl) rfl rfl rfl
            (fun _ => Instr.noConfusion)
termination_by e _ _ => sizeOf e

theorem exprs_emits : ∀ (es : List Expr) (E : Emitter), E.Ok →
    EmitsAt E (exprs es) (fun s => s) fun s => List.replicate es.length .any ++ s
  | [], E, hE => EmitsAt.pure_unit hE
  | e :: rest, E, hE => by
    simp only [exprs]
    refine (expr_emits e E hE).seq fun E1 h1 => ?_
    refine ((exprs_emits rest E1 h1.ok).comp fun s => .any :: s).exit_eq fun s => ?_
    simp [List.replicate_succ']
termination_by es _ _ => sizeOf es

theorem sequence_emits : ∀ (es : List Expr) (E : Emitter), E.Ok →
    EmitsAt E (Emit.sequence false es) (fun s => .any :: s) fun s => .any :: s
  | [], E, hE => by
    simp only [Emit.sequence]
    exact EmitsAt.pure_unit hE
  | e :: rest, E, hE => by
    simp only [Emit.sequence, Bool.not_false, if_true]
    exact (EmitsAt.emit_plain hE (i := .pop) (.of_none rfl rfl rfl) rfl
      (fun _ => by simp [Instr.pops]) (fun _ => Instr.noConfusion)).seq fun E1 h1 =>
        (expr_emits e E1 h1.ok).seq fun E2 h2 => sequence_emits rest E2 h2.ok
termination_by es _ _ => sizeOf es

theorem props_emits : ∀ (ps : List Property) (E : Emitter), E.Ok →
    EmitsAt E (props ps) (fun s => .obj :: s) fun s => .obj :: s
  | [], E, hE => EmitsAt.pure_unit hE
  | .mk _ key value :: rest, E, hE => by
    simp only [props]
    refine ((expr_emits value E hE).comp fun s => .obj :: s).seq fun E1 h1 => ?_
    refine EmitsAt.name_bind h1.ok fun k E2 h2 hk => ?_
    refine (EmitsAt.emit h2.ok (i := .initProp k) (Instr.RefsIn.of_name rfl rfl rfl hk) rfl
      (fun s => ⟨by simp [Instr.pops], fun _ _ => rfl⟩) fun s => rfl).seq fun E3 h3 => ?_
    exact props_emits rest E3 h3.ok
termination_by ps _ _ => sizeOf ps

theorem func_adds : ∀ (f : Func) (isExpr : Bool) (E : Emitter), E.Ok → ∀ k E',
    (func f isExpr).run E = .ok (k, E') →
    E.Extends E' ∧ E'.instrs = E.instrs ∧ E'.loops = E.loops ∧ k < E'.funcs.size
  | .mk sp nm params bsp stmts, isExpr, E, hE, k, E', hrun => by
    unfold func at hrun
    dsimp only at hrun
    split at hrun
    · next u inner hinner =>
      rw [run_addFunction] at hrun
      cases hrun
      -- the body, then `return undefined`
      obtain ⟨E3, hbody, hfin⟩ := body_emitted (fun E1 h1 => hoist_emits stmts E1 h1)
        (fun E1 h1 => block_emits stmts E1 h1) hinner
      obtain ⟨⟨⟩, E4, hr4, hr5⟩ := run_bind_ok hfin
      rw [run_discard_emit] at hr4
      cases hr4
      rw [run_discard_emit] at hr5
      cases hr5
      have hcode := Code.wellFormed_of_emitted (c := finishFunction (.mk sp nm params bsp stmts)
        isExpr { E3 with instrs := (E3.instrs.push .pushUndefined).push .ret }) hbody
        (by simp [finishFunction, Code.instrs, ending]) rfl rfl rfl
      refine ⟨Emitter.Extends.of_tables hE rfl rfl rfl (Nat.le_refl _) (Nat.le_refl _)
        (by simp) fun c hc => ?_, rfl, rfl, by simp⟩
      rcases Array.mem_push.mp hc with hc | rfl
      · exact hE.code c hc
      · exact hcode
    · cases hrun
termination_by f _ _ _ _ _ _ => sizeOf f

theorem hoist_emits : ∀ (ss : List Stmt) (E : Emitter), E.Ok →
    EmitsAt E (hoist ss) (fun _ => []) fun _ => []
  | [], E, hE => EmitsAt.pure_unit hE
  | st :: rest, E, hE => by
    simp only [hoist]
    exact (hoistIn_emits st E hE).seq fun E1 h1 => hoist_emits rest E1 h1.ok
termination_by ss _ _ => sizeOf ss

theorem hoistIn_emits : ∀ (st : Stmt) (E : Emitter), E.Ok →
    EmitsAt E (hoistIn st) (fun _ => []) fun _ => []
  | .funcDecl f, E, hE => by
    simp only [hoistIn]
    refine EmitsAt.bind_silent (fun k E1 h => ?_) fun k E1 h => ?_
    · obtain ⟨hx, hinstrs, hloops, -⟩ := func_adds f false E hE k E1 h
      exact ⟨hx, hinstrs, hloops⟩
    · obtain ⟨hx, -, -, hk⟩ := func_adds f false E hE k E1 h
      exact (EmitsAt.emit_plain hx.ok (i := .makeClosure k)
        (.of_func rfl rfl rfl hk) rfl (fun _ => Nat.zero_le _) (fun _ => Instr.noConfusion)).seq
        fun E2 h2 => EmitsAt.name_bind h2.ok fun n E3 h3 hn => EmitsAt.emit_named h3.ok rfl rfl rfl
          hn rfl (fun _ => by simp [Instr.pops, Instr.after, Instr.pushed])
            (fun _ => Instr.noConfusion)
  | .block _ stmts, E, hE => by
    simp only [hoistIn]
    exact hoist_emits stmts E hE
  | .ifElse _ _ yes no, E, hE => by
    cases no with
    | some no =>
      simp only [hoistIn]
      exact (hoistIn_emits yes E hE).seq fun E1 h1 => hoistIn_emits no E1 h1.ok
    | none =>
      simp only [hoistIn]
      exact (hoistIn_emits yes E hE).seq fun E1 h1 => EmitsAt.pure_unit h1.ok
  | .whileLoop _ _ b, E, hE => by
    simp only [hoistIn]
    exact hoistIn_emits b E hE
  | .forLoop _ _ _ _ b, E, hE => by
    simp only [hoistIn]
    exact hoistIn_emits b E hE
  | .empty _, E, hE | .expr _ _, E, hE | .vars _ _, E, hE | .breakLoop _, E, hE
  | .continueLoop _, E, hE | .ret _ _, E, hE => by
    simp only [hoistIn]
    exact EmitsAt.pure_unit hE
termination_by st _ _ => sizeOf st

theorem block_emits : ∀ (ss : List Stmt) (E : Emitter), E.Ok →
    EmitsAt E (block ss) (fun _ => []) fun _ => []
  | [], E, hE => EmitsAt.pure_unit hE
  | st :: rest, E, hE => by
    simp only [block]
    exact (stmt_emits st E hE).seq fun E1 h1 => block_emits rest E1 h1.ok
termination_by ss _ _ => sizeOf ss

theorem declarators_emits : ∀ (ds : List Declarator) (E : Emitter), E.Ok →
    EmitsAt E (declarators ds) (fun _ => []) fun _ => []
  | [], E, hE => EmitsAt.pure_unit hE
  | .mk _ id init :: rest, E, hE => by
    cases init with
    | some e =>
      simp only [declarators]
      exact ((expr_emits e E hE).comp fun _ => []).seq fun E1 h1 =>
        EmitsAt.name_bind h1.ok fun k E2 h2 hk =>
          (EmitsAt.emit_named h2.ok (i := .setVar k) rfl rfl rfl hk rfl
            (fun _ => by simp [Instr.pops]) (fun _ => Instr.noConfusion)).seq fun E3 h3 =>
            (EmitsAt.emit_plain h3.ok (i := .pop) (.of_none rfl rfl rfl) rfl
              (fun _ => by simp [Instr.pops, Instr.after, Instr.pushed])
                (fun _ => Instr.noConfusion)).seq fun E4 h4 =>
              declarators_emits rest E4 h4.ok
    | none =>
      simp only [declarators]
      exact declarators_emits rest E hE
termination_by ds _ _ => sizeOf ds

theorem forInit_emits : ∀ (init : Option ForInit) (E : Emitter), E.Ok →
    EmitsAt E (forInit init) (fun _ => []) fun _ => []
  | some (.vars _ ds), E, hE => by
    simp only [forInit]
    exact declarators_emits ds E hE
  | some (.expr e), E, hE => by
    simp only [forInit]
    exact ((expr_emits e E hE).comp fun _ => []).seq fun E1 h1 =>
      EmitsAt.emit_plain h1.ok (.of_none rfl rfl rfl) rfl (fun _ => by simp [Instr.pops])
        (fun _ => Instr.noConfusion)
  | none, E, hE => by
    simp only [forInit]
    exact EmitsAt.pure_unit hE
termination_by init _ _ => sizeOf init

theorem stmt_emits : ∀ (st : Stmt) (E : Emitter), E.Ok →
    EmitsAt E (stmt st) (fun _ => []) fun _ => []
  | .empty _, E, hE => by
    simp only [stmt]
    exact EmitsAt.pure_unit hE
  | .expr _ e, E, hE => by
    simp only [stmt]
    exact exprStmt_emits (fun E1 h1 => (expr_emits e E1 h1).comp fun _ => []) E hE
  | .block _ stmts, E, hE => by
    simp only [stmt]
    exact block_emits stmts E hE
  | .vars _ ds, E, hE => by
    simp only [stmt]
    exact declarators_emits ds E hE
  | .funcDecl _, E, hE => by
    simp only [stmt]
    exact EmitsAt.pure_unit hE
  | .ifElse _ test yes (some no), E, hE => by
    simp only [stmt]
    exact condCode_emits (fun E1 h1 => (expr_emits test E1 h1).comp fun _ => [])
      (fun E1 h1 => stmt_emits yes E1 h1) (fun E1 h1 => stmt_emits no E1 h1) E hE
  | .ifElse _ test yes none, E, hE => by
    simp only [stmt]
    exact ifCode_emits (fun E1 h1 => (expr_emits test E1 h1).comp fun _ => [])
      (fun E1 h1 => stmt_emits yes E1 h1) E hE
  | .whileLoop _ test b, E, hE => by
    simp only [stmt]
    exact whileCode_emits (fun E1 h1 => (expr_emits test E1 h1).comp fun _ => [])
      (fun E1 h1 => stmt_emits b E1 h1) E hE
  | .forLoop _ init test update b, E, hE => by
    simp only [stmt]
    refine forCode_emits (fun E1 h1 => forInit_emits init E1 h1) (fun m hm => ?_) (fun m hm => ?_)
      (fun E1 h1 => stmt_emits b E1 h1) E hE
    · cases test with
      | some t =>
        cases hm
        exact fun E1 h1 => (expr_emits t E1 h1).comp fun _ => []
      | none => cases hm
    · cases update with
      | some u =>
        cases hm
        exact fun E1 h1 => (expr_emits u E1 h1).comp fun _ => []
      | none => cases hm
  | .breakLoop _, E, hE => by
    simp only [stmt]
    exact loopExit_emits true E hE
  | .continueLoop _, E, hE => by
    simp only [stmt]
    exact loopExit_emits false E hE
  | .ret _ arg, E, hE => by
    simp only [stmt]
    refine retCode_emits (fun m hm => ?_) E hE
    cases arg with
    | some a =>
      cases hm
      exact fun E1 h1 => (expr_emits a E1 h1).comp fun _ => []
    | none => cases hm
termination_by st _ _ => sizeOf st

end

/-- The code of a script is well formed, and so is the code of every function literal in it. -/
theorem Program.compile_wellFormed {p : Program} {c : Code} (h : p.compile = .ok c) :
    c.WellFormed true := by
  unfold Program.compile at h
  cases hrun : (do
    Emit.declareVars (varNames p.body)
    Emit.hoist p.body
    Emit.block p.body
    discard (Emit.emit .halt) : Emit Unit).run (Emitter.start true) with
  | error f =>
    rw [hrun] at h
    cases h
  | ok r =>
    obtain ⟨⟨⟩, E4⟩ := r
    rw [hrun] at h
    cases h
    obtain ⟨E3, hbody, hfin⟩ := Emit.body_emitted (fun E1 h1 => hoist_emits p.body E1 h1)
      (fun E1 h1 => block_emits p.body E1 h1) hrun
    rw [Emit.run_discard_emit] at hfin
    cases hfin
    exact Code.wellFormed_of_emitted hbody (by simp [Code.instrs, ending]) rfl rfl rfl

end EcmaLite
