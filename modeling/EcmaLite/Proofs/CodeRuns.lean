import EcmaLite.Proofs.StretchRuns

/-!
# Stretches of code that run as the evaluator

The shapes of code the compiler lays out, and what the machine does on them. A stretch of code
`C` from instruction `p` to `q` is described by what it does to a frame that runs `C` in an
environment `ρ` (`EvalEnv.frame`), whatever the stack below and the completion value:

* `Code.Pushes C p q x`: it pushes the value `x ρ` gives, as an expression's code does;
* `Code.PushesAll`: it pushes a list of values, as the code of arguments does;
* `Code.Replaces`: it replaces the value on top by another, as the tail of a comma expression;
* `Code.Fills`: it stores entries into the object on top, as the entries of an object literal;
* `Code.Effects`: it leaves stack and completion value alone, as declarations do;
* `Code.Performs C p q brk cont x`: it runs as a statement, going on at `q`, at `brk` on `break`,
  at `cont` on `continue`, and out of the code on `return` (`EvalEnv.after`).

Each construct of the language has its lemma here, from the relations of its parts and the
instructions between them to the relation of the whole, with the computation the evaluator makes
of the construct. Every relation holds in both directions of `Sim`.
-/

namespace EcmaLite

/-- The frame that runs code `C` in `ρ` at instruction `q`, with stack `st` and completion value
`cv`. -/
def EvalEnv.frame (ρ : EvalEnv) (C : Code) (q : Nat) (st : List Value) (cv : Value) : Frame :=
  ⟨C, q, st, ρ.scope, ρ.this, cv, ρ.global⟩

/-- Where a statement of code `C` leads: on at `q` when it ends normally, to `brk` on `break`, to
`cont` on `continue`, and out of the code with the value of a `return`. -/
def EvalEnv.after (ρ : EvalEnv) (C : Code) (st : List Value) (q brk cont : Nat) :
    Exit × Value → Next
  | (.normal, cv) => .go (ρ.frame C q st cv)
  | (.breaks, cv) => .go (ρ.frame C brk st cv)
  | (.continues, cv) => .go (ρ.frame C cont st cv)
  | (.returns v, _) => .finish v

/-- What follows a statement that ended with `r`: the rest `more`, run with the completion value,
when it ended normally; else the same end. -/
def Exit.resume (r : Exit × Value) (more : Value → Run (Exit × Value)) : Run (Exit × Value) :=
  match r with
  | (.normal, cv) => more cv
  | r => pure r

namespace EvalEnv

variable {ρ : EvalEnv} {C : Code} {q : Nat} {st : List Value} {cv : Value}

@[simp] theorem frame_code : (ρ.frame C q st cv).code = C := rfl

@[simp] theorem frame_with_ip (q' : Nat) : { ρ.frame C q st cv with ip := q' } = ρ.frame C q' st cv :=
  rfl

@[simp] theorem frame_goto (q' : Nat) : (ρ.frame C q st cv).goto q' = ρ.frame C q' st cv := rfl

@[simp] theorem frame_push (v : Value) : (ρ.frame C q st cv).push v = ρ.frame C q (v :: st) cv :=
  rfl

@[simp] theorem frame_pop (v : Value) : (ρ.frame C q (v :: st) cv).pop = (v, ρ.frame C q st cv) :=
  rfl

@[simp] theorem frame_pop2 (a b : Value) :
    (ρ.frame C q (b :: a :: st) cv).pop2 = (a, b, ρ.frame C q st cv) := rfl

@[simp] theorem frame_with_completion (cv' : Value) :
    { ρ.frame C q st cv with completion := cv' } = ρ.frame C q st cv' := rfl

/-- The values pushed last, taken off in the order they were pushed. -/
theorem frame_popN (vs : List Value) :
    (ρ.frame C q (vs.reverse ++ st) cv).popN vs.length = (vs, ρ.frame C q st cv) := by
  simp [Frame.popN, EvalEnv.frame]

end EvalEnv

/-- Running a computation for its effect only. -/
theorem Run.discard_bind {α β : Type} (x : Run α) (f : PUnit → Run β) :
    (discard x >>= f) = x >>= fun _ => f () := by
  funext w
  show EStateM.bind (EStateM.map _ x) f w = EStateM.bind x _ w
  unfold EStateM.bind EStateM.map
  cases x w <;> rfl

/-! ## The relations -/

namespace Code

variable (C : Code)

/-- From instruction `p`, the code pushes the value of `x` and goes on at `q`. -/
def Pushes (p q : Nat) (x : EvalEnv → Nat → Run Value) : Prop :=
  ∀ ρ st cv, Sim 0 (.go (ρ.frame C p st cv)) (x ρ) fun v => .go (ρ.frame C q (v :: st) cv)

/-- From instruction `p`, the code pushes the values of `x` in order and goes on at `q`. -/
def PushesAll (p q : Nat) (x : EvalEnv → Nat → Run (List Value)) : Prop :=
  ∀ ρ st cv, Sim 0 (.go (ρ.frame C p st cv)) (x ρ) fun vs =>
    .go (ρ.frame C q (vs.reverse ++ st) cv)

/-- From instruction `p`, the code replaces the value `v` on top by the value of `x v` and goes
on at `q`. -/
def Replaces (p q : Nat) (x : EvalEnv → Value → Nat → Run Value) : Prop :=
  ∀ ρ v st cv, Sim 0 (.go (ρ.frame C p (v :: st) cv)) (x ρ v) fun v' =>
    .go (ρ.frame C q (v' :: st) cv)

/-- From instruction `p`, the code runs `x o` on the object `o` on top and goes on at `q` with
the object still on top. -/
def Fills (p q : Nat) (x : EvalEnv → ObjId → Nat → Run Unit) : Prop :=
  ∀ ρ o st cv, Sim 0 (.go (ρ.frame C p (.obj o :: st) cv)) (x ρ o) fun _ =>
    .go (ρ.frame C q (.obj o :: st) cv)

/-- From instruction `p`, the code runs `x` and goes on at `q` with stack and completion value as
they were. -/
def Effects (p q : Nat) (x : EvalEnv → Nat → Run Unit) : Prop :=
  ∀ ρ st cv, Sim 0 (.go (ρ.frame C p st cv)) (x ρ) fun _ => .go (ρ.frame C q st cv)

/-- From instruction `p`, the code runs as the statement `x` run with the completion value of the
frame, and leads where `EvalEnv.after` says. -/
def Performs (p q brk cont : Nat) (x : EvalEnv → Nat → Value → Run (Exit × Value)) : Prop :=
  ∀ ρ st cv, Sim 0 (.go (ρ.frame C p st cv)) (fun n => x ρ n cv) (ρ.after C st q brk cont)

end Code

/-! ## Expressions -/

namespace Code

open Run

variable {C : Code} {p q r s : Nat}

/-- The instruction at `p`, run from a frame at `p`: what it computes and where it leads. -/
theorem sim_instr {α : Type} {ρ : EvalEnv} {st : List Value} {cv : Value} {i : Instr}
    {x : Nat → Run α} {k : α → Next} (hi : C.instrs[p]? = some i)
    (hstep : ∀ n w, step (n + 1) (ρ.frame C (p + 1) st cv) i w = ((fun a => k a) <$> x n) w)
    (hx : FuelMono x) : Sim 1 (.go (ρ.frame C p st cv)) x k :=
  Sim.instr hi hstep hx

section Steps

variable {ρ : EvalEnv} {st : List Value} {cv v : Value}

/-- `dup` copies the top value. -/
theorem sim_dup (hi : C.instrs[p]? = some .dup) :
    Sim 1 (.go (ρ.frame C p (v :: st) cv)) (fun _ => pure ()) fun _ =>
      .go (ρ.frame C (p + 1) (v :: v :: st) cv) :=
  sim_instr hi (fun _ _ => by simp only [step]; rfl) (fuelMono_const _)

/-- `pop` drops the top value. -/
theorem sim_pop (hi : C.instrs[p]? = some .pop) :
    Sim 1 (.go (ρ.frame C p (v :: st) cv)) (fun _ => pure ()) fun _ =>
      .go (ρ.frame C (p + 1) st cv) :=
  sim_instr hi (fun _ _ => by simp only [step]; rfl) (fuelMono_const _)

/-- `jump t` goes on at `t`. -/
theorem sim_jump {t : Nat} (hi : C.instrs[p]? = some (.jump t)) :
    Sim 1 (.go (ρ.frame C p st cv)) (fun _ => pure ()) fun _ => .go (ρ.frame C t st cv) :=
  sim_instr hi (fun _ _ => by simp only [step]; rfl) (fuelMono_const _)

/-- `jumpIfFalse t` takes the top value and goes on at `t` when it is falsy. -/
theorem sim_jumpIfFalse {t : Nat} (hi : C.instrs[p]? = some (.jumpIfFalse t)) :
    Sim 1 (.go (ρ.frame C p (v :: st) cv)) (fun _ => pure ()) fun _ =>
      .go (ρ.frame C (if v.truthy then p + 1 else t) st cv) :=
  sim_instr hi (fun _ _ => by
    cases hv : v.truthy <;> simp only [step, EvalEnv.frame_pop, hv, ↓reduceIte] <;> rfl)
    (fuelMono_const _)

/-- `jumpIfTrue t` takes the top value and goes on at `t` when it is truthy. -/
theorem sim_jumpIfTrue {t : Nat} (hi : C.instrs[p]? = some (.jumpIfTrue t)) :
    Sim 1 (.go (ρ.frame C p (v :: st) cv)) (fun _ => pure ()) fun _ =>
      .go (ρ.frame C (if v.truthy then t else p + 1) st cv) :=
  sim_instr hi (fun _ _ => by
    cases hv : v.truthy <;> simp only [step, EvalEnv.frame_pop, hv, ↓reduceIte] <;> rfl)
    (fuelMono_const _)

/-- `dup2` copies the two top values. -/
theorem sim_dup2 {a : Value} (hi : C.instrs[p]? = some .dup2) :
    Sim 1 (.go (ρ.frame C p (v :: a :: st) cv)) (fun _ => pure ()) fun _ =>
      .go (ρ.frame C (p + 1) (v :: a :: v :: a :: st) cv) :=
  sim_instr hi (fun _ _ => by simp only [step]; rfl) (fuelMono_const _)

/-- `getProp k` reads property `k` of the top value. -/
theorem sim_getProp {k : Nat} (hi : C.instrs[p]? = some (.getProp k)) :
    Sim 1 (.go (ρ.frame C p (v :: st) cv)) (fun _ => Run.getProp v (C.nameAt k)) fun f =>
      .go (ρ.frame C (p + 1) (f :: st) cv) :=
  sim_instr hi (fun _ _ => by simp only [step]; rfl) (fuelMono_const _)

/-- `getElem` reads the element of the second value named by the top one. -/
theorem sim_getElem {b : Value} (hi : C.instrs[p]? = some .getElem) :
    Sim 1 (.go (ρ.frame C p (v :: b :: st) cv)) (fun _ => Run.getElem b v) fun f =>
      .go (ρ.frame C (p + 1) (f :: st) cv) :=
  sim_instr hi (fun _ _ => by simp only [step]; rfl) (fuelMono_const _)

/-- The instruction of a binary operator applies it to the two top values. -/
theorem sim_binaryOp (op : BinaryOp) {a : Value} (hi : C.instrs[p]? = some (Emit.binaryInstr op)) :
    Sim 1 (.go (ρ.frame C p (v :: a :: st) cv)) (fun _ => op.apply a v) fun r =>
      .go (ρ.frame C (p + 1) (r :: st) cv) :=
  sim_instr hi (fun _ _ => by
    cases op <;> simp only [step, Emit.binaryInstr, BinaryOp.apply, map_bind, map_pure] <;> rfl)
    (fuelMono_const _)

end Steps

/-- An instruction that pushes a value known in advance. -/
theorem Pushes.value {i : Instr} {v : Value} (hi : C.instrs[p]? = some i)
    (hstep : ∀ (ρ : EvalEnv) st cv n w, step (n + 1) (ρ.frame C (p + 1) st cv) i w =
      .ok (.go (ρ.frame C (p + 1) (v :: st) cv)) w) :
    C.Pushes p (p + 1) fun _ _ => pure v :=
  fun ρ st cv => (sim_instr hi (hstep ρ st cv) (fuelMono_const _)).weaken (Nat.zero_le 1)

/-- An instruction that pushes what `x` computes. -/
theorem Pushes.instr {i : Instr} {x : EvalEnv → Nat → Run Value} (hi : C.instrs[p]? = some i)
    (hstep : ∀ ρ st cv n w, step (n + 1) (ρ.frame C (p + 1) st cv) i w =
      ((fun v => Next.go (ρ.frame C (p + 1) (v :: st) cv)) <$> x ρ n) w)
    (hx : ∀ ρ, FuelMono (x ρ)) : C.Pushes p (p + 1) x :=
  fun ρ st cv => (sim_instr hi (hstep ρ st cv) (hx ρ)).weaken (Nat.zero_le 1)

/-- An expression, then an instruction that takes its value and pushes what `f` makes of it. -/
theorem Pushes.unary {i : Instr} {x : EvalEnv → Nat → Run Value}
    {f : EvalEnv → Value → Nat → Run Value} (h : C.Pushes p q x) (hi : C.instrs[q]? = some i)
    (hstep : ∀ ρ v st cv n w, step (n + 1) (ρ.frame C (q + 1) (v :: st) cv) i w =
      ((fun v' => Next.go (ρ.frame C (q + 1) (v' :: st) cv)) <$> f ρ v n) w)
    (hf : ∀ ρ v, FuelMono (f ρ v)) :
    C.Pushes p (q + 1) fun ρ n => x ρ n >>= fun v => f ρ v n :=
  fun ρ st cv =>
    ((h ρ st cv).bind fun v => sim_instr hi (hstep ρ v st cv) (hf ρ v)).weaken (Nat.zero_le _)

/-- Two expressions, then an instruction that takes both values and pushes what `f` makes of
them. -/
theorem Pushes.binary {i : Instr} {x y : EvalEnv → Nat → Run Value}
    {f : EvalEnv → Value → Value → Nat → Run Value} (hx : C.Pushes p q x) (hy : C.Pushes q r y)
    (hi : C.instrs[r]? = some i)
    (hstep : ∀ ρ a b st cv n w, step (n + 1) (ρ.frame C (r + 1) (b :: a :: st) cv) i w =
      ((fun v => Next.go (ρ.frame C (r + 1) (v :: st) cv)) <$> f ρ a b n) w)
    (hf : ∀ ρ a b, FuelMono (f ρ a b)) :
    C.Pushes p (r + 1) fun ρ n => x ρ n >>= fun a => y ρ n >>= fun b => f ρ a b n :=
  fun ρ st cv => ((hx ρ st cv).bind fun a => (hy ρ (a :: st) cv).bind fun b =>
    sim_instr hi (hstep ρ a b st cv) (hf ρ a b)).weaken (Nat.zero_le _)

/-- The same code, with the computation written another way. -/
theorem Pushes.congr {x x' : EvalEnv → Nat → Run Value} (h : C.Pushes p q x)
    (hx : ∀ ρ n, x' ρ n = x ρ n) : C.Pushes p q x' :=
  fun ρ st cv => (h ρ st cv).congr (hx ρ)

/-- A binary operator on the values of two expressions. -/
theorem Pushes.binaryOp {x y : EvalEnv → Nat → Run Value} (op : BinaryOp) (hx : C.Pushes p q x)
    (hy : C.Pushes q r y) (hi : C.instrs[r]? = some (Emit.binaryInstr op)) :
    C.Pushes p (r + 1) fun ρ n => x ρ n >>= fun a => y ρ n >>= fun b => op.apply a b :=
  fun ρ st cv => ((hx ρ st cv).bind fun a => (hy ρ (a :: st) cv).bind fun _ =>
    sim_binaryOp op hi).weaken (Nat.zero_le _)

section Leaves

variable {k : Nat}

theorem Pushes.getVar (hi : C.instrs[p]? = some (.getVar k)) :
    C.Pushes p (p + 1) fun ρ _ => ρ.read (C.nameAt k) :=
  Pushes.instr hi (fun _ _ _ _ _ => by simp only [step]; rfl) fun _ => fuelMono_const _

theorem Pushes.this (hi : C.instrs[p]? = some .this) : C.Pushes p (p + 1) fun ρ _ => pure ρ.this :=
  Pushes.instr hi (fun _ _ _ _ _ => by simp only [step]; rfl) fun _ => fuelMono_const _

theorem Pushes.typeOfVar (hi : C.instrs[p]? = some (.typeOfVar k)) :
    C.Pushes p (p + 1) fun ρ _ => do return .str (← ρ.typeOfName (C.nameAt k)) :=
  Pushes.instr hi (fun _ _ _ _ _ => by simp only [step, map_bind, map_pure]; rfl)
    fun _ => fuelMono_const _

theorem Pushes.updateVar {op : UpdateOp} {pre : Bool}
    (hi : C.instrs[p]? = some (.updateVar k op pre)) :
    C.Pushes p (p + 1) fun ρ _ => ρ.updateName (C.nameAt k) op pre :=
  Pushes.instr hi (fun _ _ _ _ _ => by simp only [step, EvalEnv.updateName, map_bind, map_pure]; rfl)
    fun _ => fuelMono_const _

/-- A closure of function literal `k`, whose code is `code`. -/
theorem Pushes.closure {code : Code} (hi : C.instrs[p]? = some (.makeClosure k))
    (hk : C.funcs[k]? = some code) : C.Pushes p (p + 1) fun ρ _ => ρ.closure code :=
  Pushes.instr hi (fun _ _ _ _ _ => by
    simp only [step, Run.makeClosure, EvalEnv.frame_code, hk, Option.getD_some]
    rfl) fun _ => fuelMono_const _

theorem Pushes.str {t : String} (hi : C.instrs[p]? = some (.pushConst k))
    (hk : C.consts[k]? = some (.str t)) : C.Pushes p (p + 1) fun _ _ => pure (.str t) :=
  Pushes.value hi fun _ _ _ _ _ => by simp only [step, Frame.const, EvalEnv.frame_code, hk]; rfl

theorem Pushes.num {m : Number} (hi : C.instrs[p]? = some (.pushConst k))
    (hk : C.consts[k]? = some (.num m)) : C.Pushes p (p + 1) fun _ _ => pure (.num m) :=
  Pushes.value hi fun _ _ _ _ _ => by simp only [step, Frame.const, EvalEnv.frame_code, hk]; rfl

end Leaves

section Operators

variable {x y : EvalEnv → Nat → Run Value} {k : Nat}

theorem Pushes.negate (h : C.Pushes p q x) (hi : C.instrs[q]? = some .negate) :
    C.Pushes p (q + 1) fun ρ n => do return Run.number (-(← x ρ n).toFloat) :=
  h.unary hi (fun _ _ _ _ _ _ => by simp only [step]; rfl) fun _ _ => fuelMono_const _

theorem Pushes.toNumber (h : C.Pushes p q x) (hi : C.instrs[q]? = some .toNumber) :
    C.Pushes p (q + 1) fun ρ n => do return .num (← x ρ n).toNumber :=
  h.unary hi (fun _ _ _ _ _ _ => by simp only [step]; rfl) fun _ _ => fuelMono_const _

theorem Pushes.not (h : C.Pushes p q x) (hi : C.instrs[q]? = some .not) :
    C.Pushes p (q + 1) fun ρ n => do return .bool !(← x ρ n).truthy :=
  h.unary hi (fun _ _ _ _ _ _ => by simp only [step]; rfl) fun _ _ => fuelMono_const _

theorem Pushes.typeOf (h : C.Pushes p q x) (hi : C.instrs[q]? = some .typeOf) :
    C.Pushes p (q + 1) fun ρ n => (do
      let v ← x ρ n
      return .str ((← get).typeName v)) :=
  h.unary hi (fun _ _ _ _ _ _ => by simp only [step, map_bind, map_pure]; rfl)
    fun _ _ => fuelMono_const _

theorem Pushes.void (h : C.Pushes p q x) (hi : C.instrs[q]? = some .void) :
    C.Pushes p (q + 1) fun ρ n => (do
      discard (x ρ n)
      return .undefined) :=
  (h.unary (f := fun _ _ _ => pure .undefined) hi (fun _ _ _ _ _ _ => by simp only [step]; rfl)
    fun _ _ => fuelMono_const _).congr fun _ _ => Run.discard_bind _ _

theorem Pushes.getProp (h : C.Pushes p q x) (hi : C.instrs[q]? = some (.getProp k)) :
    C.Pushes p (q + 1) fun ρ n => (do
      let b ← x ρ n
      Run.getProp b (C.nameAt k)) :=
  h.unary hi (fun _ _ _ _ _ _ => by simp only [step]; rfl) fun _ _ => fuelMono_const _

theorem Pushes.deleteProp (h : C.Pushes p q x) (hi : C.instrs[q]? = some (.deleteProp k)) :
    C.Pushes p (q + 1) fun ρ n => (do
      let b ← x ρ n
      return .bool (← Run.deleteProp b (C.nameAt k))) :=
  h.unary hi (fun _ _ _ _ _ _ => by simp only [step, map_bind, map_pure]; rfl)
    fun _ _ => fuelMono_const _

theorem Pushes.updateProp {op : UpdateOp} {pre : Bool} (h : C.Pushes p q x)
    (hi : C.instrs[q]? = some (.updateProp k op pre)) :
    C.Pushes p (q + 1) fun ρ n => (do
      let b ← x ρ n
      Run.updateProp b (C.nameAt k) op pre) :=
  h.unary hi (fun _ _ _ _ _ _ => by simp only [step]; rfl) fun _ _ => fuelMono_const _

theorem Pushes.getElem (hx : C.Pushes p q x) (hy : C.Pushes q r y)
    (hi : C.instrs[r]? = some .getElem) :
    C.Pushes p (r + 1) fun ρ n => (do
      let b ← x ρ n
      let k ← y ρ n
      Run.getElem b k) :=
  hx.binary hy hi (fun _ _ _ _ _ _ _ => by simp only [step]; rfl) fun _ _ _ => fuelMono_const _

theorem Pushes.deleteElem (hx : C.Pushes p q x) (hy : C.Pushes q r y)
    (hi : C.instrs[r]? = some .deleteElem) :
    C.Pushes p (r + 1) fun ρ n => (do
      let b ← x ρ n
      let k ← y ρ n
      return .bool (← Run.deleteProp b ((← get).text k))) :=
  hx.binary hy hi (fun _ _ _ _ _ _ _ => by simp only [step, map_bind, map_pure]; rfl)
    fun _ _ _ => fuelMono_const _

theorem Pushes.updateElem {op : UpdateOp} {pre : Bool} (hx : C.Pushes p q x)
    (hy : C.Pushes q r y) (hi : C.instrs[r]? = some (.updateElem op pre)) :
    C.Pushes p (r + 1) fun ρ n => (do
      let b ← x ρ n
      let k ← y ρ n
      Run.updateProp b ((← get).text k) op pre) :=
  hx.binary hy hi (fun _ _ _ _ _ _ _ => by simp only [step]; rfl) fun _ _ _ => fuelMono_const _

/-- An expression whose value is dropped, then another. -/
theorem Pushes.drop (hx : C.Pushes p q x) (hi : C.instrs[q]? = some .pop)
    (hy : C.Pushes (q + 1) r y) :
    C.Pushes p r fun ρ n => (do
      discard (x ρ n)
      y ρ n) :=
  fun ρ st cv => (((hx ρ st cv).bind fun _ => (sim_pop hi).andThen (hy ρ st cv)).weaken
    (Nat.zero_le _)).congr fun _ => Run.discard_bind _ _

end Operators

section Control

variable {x y z : EvalEnv → Nat → Run Value}

/-- An expression, then a jump. -/
theorem Pushes.jump (h : C.Pushes p q x) (hi : C.instrs[q]? = some (.jump r)) :
    C.Pushes p r x := by
  intro ρ st cv
  have hrest : ∀ v, Sim 0 (.go (ρ.frame C q (v :: st) cv)) (fun _ => pure v) fun v =>
      .go (ρ.frame C r (v :: st) cv) := fun v =>
    ((sim_jump hi).andThen (Sim.pure v rfl)).weaken (Nat.zero_le _)
  exact (((h ρ st cv).bind hrest).weaken (Nat.zero_le _)).congr fun n => (bind_pure (x ρ n)).symm

/-- `a && b`: the right side runs when the left value is truthy; the value is the operand that
decided. -/
theorem Pushes.and (hx : C.Pushes p q x) (hdup : C.instrs[q]? = some .dup)
    (hj : C.instrs[q + 1]? = some (.jumpIfFalse s)) (hpop : C.instrs[q + 2]? = some .pop)
    (hy : C.Pushes (q + 3) s y) :
    C.Pushes p s fun ρ n => (do
      let a ← x ρ n
      if a.truthy then y ρ n else pure a) := by
  intro ρ st cv
  have hrest : ∀ a, Sim 0 (.go (ρ.frame C q (a :: st) cv))
      (fun n => if a.truthy then y ρ n else pure a) fun v => .go (ρ.frame C s (v :: st) cv) := by
    intro a
    have hbranch : Sim 0 (.go (ρ.frame C (if a.truthy then q + 1 + 1 else s) (a :: st) cv))
        (fun n => if a.truthy then y ρ n else pure a) fun v => .go (ρ.frame C s (v :: st) cv) := by
      cases ha : a.truthy
      · -- the left value decides, and the jump leaves it on the stack
        simp only [Bool.false_eq_true, ↓reduceIte]
        exact Sim.pure a rfl
      · simp only [↓reduceIte]
        exact ((sim_pop hpop).andThen (hy ρ st cv)).weaken (Nat.zero_le _)
    exact ((sim_dup hdup).andThen ((sim_jumpIfFalse hj).andThen hbranch)).weaken (Nat.zero_le _)
  exact ((hx ρ st cv).bind hrest).weaken (Nat.zero_le _)

/-- `a || b`: the right side runs when the left value is falsy; the value is the operand that
decided. -/
theorem Pushes.or (hx : C.Pushes p q x) (hdup : C.instrs[q]? = some .dup)
    (hj : C.instrs[q + 1]? = some (.jumpIfTrue s)) (hpop : C.instrs[q + 2]? = some .pop)
    (hy : C.Pushes (q + 3) s y) :
    C.Pushes p s fun ρ n => (do
      let a ← x ρ n
      if a.truthy then pure a else y ρ n) := by
  intro ρ st cv
  have hrest : ∀ a, Sim 0 (.go (ρ.frame C q (a :: st) cv))
      (fun n => if a.truthy then pure a else y ρ n) fun v => .go (ρ.frame C s (v :: st) cv) := by
    intro a
    have hbranch : Sim 0 (.go (ρ.frame C (if a.truthy then s else q + 1 + 1) (a :: st) cv))
        (fun n => if a.truthy then pure a else y ρ n) fun v => .go (ρ.frame C s (v :: st) cv) := by
      cases ha : a.truthy
      · simp only [Bool.false_eq_true, ↓reduceIte]
        exact ((sim_pop hpop).andThen (hy ρ st cv)).weaken (Nat.zero_le _)
      · -- the left value decides, and the jump leaves it on the stack
        simp only [↓reduceIte]
        exact Sim.pure a rfl
    exact ((sim_dup hdup).andThen ((sim_jumpIfTrue hj).andThen hbranch)).weaken (Nat.zero_le _)
  exact ((hx ρ st cv).bind hrest).weaken (Nat.zero_le _)

/-- `t ? y : z`: one branch runs, after the test. -/
theorem Pushes.cond (ht : C.Pushes p q x) (hj : C.instrs[q]? = some (.jumpIfFalse (r + 1)))
    (hy : C.Pushes (q + 1) r y) (hk : C.instrs[r]? = some (.jump s)) (hz : C.Pushes (r + 1) s z) :
    C.Pushes p s fun ρ n => (do
      let v ← x ρ n
      if v.truthy then y ρ n else z ρ n) := by
  intro ρ st cv
  have hrest : ∀ v, Sim 0 (.go (ρ.frame C q (v :: st) cv))
      (fun n => if v.truthy then y ρ n else z ρ n) fun a => .go (ρ.frame C s (a :: st) cv) := by
    intro v
    have hbranch : Sim 0 (.go (ρ.frame C (if v.truthy then q + 1 else r + 1) st cv))
        (fun n => if v.truthy then y ρ n else z ρ n) fun a => .go (ρ.frame C s (a :: st) cv) := by
      cases hv : v.truthy
      · simp only [Bool.false_eq_true, ↓reduceIte]
        exact hz ρ st cv
      · simp only [↓reduceIte]
        exact hy.jump hk ρ st cv
    exact ((sim_jumpIfFalse hj).andThen hbranch).weaken (Nat.zero_le _)
  exact ((ht ρ st cv).bind hrest).weaken (Nat.zero_le _)

end Control

section Lists

variable {x y : EvalEnv → Nat → Run Value} {xs : EvalEnv → Nat → Run (List Value)}

theorem PushesAll.nil : C.PushesAll p p fun _ _ => pure [] := fun _ _ _ => Sim.pure [] rfl

/-- An expression, then a list of them. -/
theorem PushesAll.cons (hx : C.Pushes p q x) (hxs : C.PushesAll q r xs) :
    C.PushesAll p r fun ρ n => (do
      let v ← x ρ n
      let vs ← xs ρ n
      return v :: vs) := by
  intro ρ st cv
  have hrest : ∀ v, Sim 0 (.go (ρ.frame C q (v :: st) cv))
      (fun n => xs ρ n >>= fun vs => pure (v :: vs)) fun vs =>
        .go (ρ.frame C r (vs.reverse ++ st) cv) := fun v =>
    (hxs ρ (v :: st) cv).bind fun vs => Sim.pure (v :: vs) (by simp)
  exact ((hx ρ st cv).bind hrest).weaken (Nat.zero_le _)

theorem Replaces.nil : C.Replaces p p fun _ v _ => pure v := fun _ v _ _ => Sim.pure v rfl

/-- The value on top dropped, and the value of an expression in its place, then the rest of a
comma expression. -/
theorem Replaces.cons {xs : EvalEnv → Value → Nat → Run Value} (hi : C.instrs[p]? = some .pop)
    (hx : C.Pushes (p + 1) q x) (hxs : C.Replaces q r xs) :
    C.Replaces p r fun ρ _ n => (do xs ρ (← x ρ n) n) :=
  fun ρ _ st cv => ((sim_pop hi).andThen ((hx ρ st cv).bind fun v => hxs ρ v st cv)).weaken
    (Nat.zero_le _)

/-- The first expression of a comma expression, then the rest. -/
theorem Pushes.seq {xs : EvalEnv → Value → Nat → Run Value} (hx : C.Pushes p q x)
    (hxs : C.Replaces q r xs) : C.Pushes p r fun ρ n => (do xs ρ (← x ρ n) n) :=
  fun ρ st cv => ((hx ρ st cv).bind fun v => hxs ρ v st cv).weaken (Nat.zero_le _)

theorem Fills.nil : C.Fills p p fun _ _ _ => pure () := fun _ _ _ _ => Sim.pure () rfl

/-- An entry of an object literal stored into the object, then the rest. -/
theorem Fills.entry {k : Nat} {ps : EvalEnv → ObjId → Nat → Run Unit} (hx : C.Pushes p q x)
    (hi : C.instrs[q]? = some (.initProp k)) (hps : C.Fills (q + 1) r ps) :
    C.Fills p r fun ρ o n => (do
      let v ← x ρ n
      modify (World.put o (C.nameAt k) v)
      ps ρ o n) := by
  intro ρ o st cv
  have hput : ∀ v, Sim 1 (.go (ρ.frame C q (v :: .obj o :: st) cv))
      (fun _ => modify (World.put o (C.nameAt k) v)) fun _ =>
        .go (ρ.frame C (q + 1) (.obj o :: st) cv) := fun _ =>
    sim_instr hi (fun _ _ => by simp only [step]; rfl) (fuelMono_const _)
  exact ((hx ρ (.obj o :: st) cv).bind fun v => (hput v).bind fun _ => hps ρ o st cv).weaken
    (Nat.zero_le _)

/-- An object literal: a new object, then its entries. -/
theorem Pushes.object {ps : EvalEnv → ObjId → Nat → Run Unit} (hi : C.instrs[p]? = some .newObject)
    (hps : C.Fills (p + 1) q ps) :
    C.Pushes p q fun ρ n => (do
      let o ← Run.make World.allocObject
      ps ρ o n
      return .obj o) := by
  intro ρ st cv
  have hnew : Sim 1 (.go (ρ.frame C p st cv)) (fun _ => Run.make World.allocObject) fun o =>
      .go (ρ.frame C (p + 1) (.obj o :: st) cv) :=
    sim_instr hi (fun _ _ => by simp only [step]; rfl) (fuelMono_const _)
  exact (hnew.bind fun o => (hps ρ o st cv).bind fun _ => Sim.pure (Value.obj o) rfl).weaken
    (Nat.zero_le _)

/-- An array literal: its elements, then the array of them. -/
theorem Pushes.array {c : Nat} (hxs : C.PushesAll p q xs)
    (hlen : ∀ ρ n w vs w', xs ρ n w = .ok vs w' → vs.length = c)
    (hi : C.instrs[q]? = some (.newArray c)) :
    C.Pushes p (q + 1) fun ρ n => (do
      let vs ← xs ρ n
      return .obj (← Run.make (World.allocArray vs))) := by
  intro ρ st cv
  have hnew : ∀ vs : List Value, vs.length = c → Sim 1 (.go (ρ.frame C q (vs.reverse ++ st) cv))
      (fun _ => do return .obj (← Run.make (World.allocArray vs))) fun v =>
        .go (ρ.frame C (q + 1) (v :: st) cv) := by
    rintro vs rfl
    exact sim_instr hi (fun _ _ => by simp only [step, EvalEnv.frame_popN, map_bind, map_pure]; rfl)
      (fuelMono_const _)
  exact ((hxs ρ st cv).bind_of (hlen ρ) hnew).weaken (Nat.zero_le _)

end Lists

section Calls

variable {x y : EvalEnv → Nat → Run Value} {xs : EvalEnv → Nat → Run (List Value)} {c : Nat}

/-- A call of a function value with the global object as receiver. -/
theorem Pushes.call (hf : C.Pushes p q x) (hargs : C.PushesAll q r xs)
    (hlen : ∀ ρ n w vs w', xs ρ n w = .ok vs w' → vs.length = c)
    (hi : C.instrs[r]? = some (.call c)) :
    C.Pushes p (r + 1) fun ρ n => (do
      let f ← x ρ n
      let vs ← xs ρ n
      ρ.exposeCaller
      callWith n f (.obj (← get).ctx.global) vs) := by
  intro ρ st cv
  have hcall : ∀ f (vs : List Value), vs.length = c →
      Sim 1 (.go (ρ.frame C r (vs.reverse ++ f :: st) cv))
        (fun n => do
          ρ.exposeCaller
          callWith n f (.obj (← get).ctx.global) vs) fun v =>
        .go (ρ.frame C (r + 1) (v :: st) cv) := by
    rintro f vs rfl
    exact sim_instr hi (fun _ _ => by simp only [step, EvalEnv.frame_popN]; rfl)
      (FuelMono.bind (fuelMono_const _) fun _ =>
        FuelMono.bind (fuelMono_const _) fun _ => callWith_fuelMono _ _ _)
  exact ((hf ρ st cv).bind fun f =>
    (hargs ρ (f :: st) cv).bind_of (hlen ρ) (hcall f)).weaken (Nat.zero_le _)

/-- A method call `b.name(args)`: the object is the receiver. -/
theorem Pushes.callMember {k : Nat} (hb : C.Pushes p q x) (hdup : C.instrs[q]? = some .dup)
    (hg : C.instrs[q + 1]? = some (.getProp k)) (hargs : C.PushesAll (q + 2) r xs)
    (hlen : ∀ ρ n w vs w', xs ρ n w = .ok vs w' → vs.length = c)
    (hi : C.instrs[r]? = some (.callMethod c)) :
    C.Pushes p (r + 1) fun ρ n => (do
      let b ← x ρ n
      let f ← Run.getProp b (C.nameAt k)
      let vs ← xs ρ n
      ρ.exposeCaller
      callWith n f b vs) := by
  intro ρ st cv
  have hcall : ∀ b f (vs : List Value), vs.length = c →
      Sim 1 (.go (ρ.frame C r (vs.reverse ++ f :: b :: st) cv))
        (fun n => do
          ρ.exposeCaller
          callWith n f b vs) fun v =>
        .go (ρ.frame C (r + 1) (v :: st) cv) := by
    rintro b f vs rfl
    exact sim_instr hi (fun _ _ => by simp only [step, EvalEnv.frame_popN]; rfl)
      (FuelMono.bind (fuelMono_const _) fun _ => callWith_fuelMono _ _ _)
  exact ((hb ρ st cv).bind fun b => (sim_dup hdup).andThen ((sim_getProp hg).bind fun f =>
    (hargs ρ (f :: b :: st) cv).bind_of (hlen ρ) (hcall b f))).weaken (Nat.zero_le _)

/-- A method call `b[key](args)`: the object is the receiver. -/
theorem Pushes.callIndex (hb : C.Pushes p q x) (hdup : C.instrs[q]? = some .dup)
    (hk : C.Pushes (q + 1) r y) (hg : C.instrs[r]? = some .getElem)
    (hargs : C.PushesAll (r + 1) s xs) (hlen : ∀ ρ n w vs w', xs ρ n w = .ok vs w' → vs.length = c)
    (hi : C.instrs[s]? = some (.callMethod c)) :
    C.Pushes p (s + 1) fun ρ n => (do
      let b ← x ρ n
      let key ← y ρ n
      let f ← Run.getElem b key
      let vs ← xs ρ n
      ρ.exposeCaller
      callWith n f b vs) := by
  intro ρ st cv
  have hcall : ∀ b f (vs : List Value), vs.length = c →
      Sim 1 (.go (ρ.frame C s (vs.reverse ++ f :: b :: st) cv))
        (fun n => do
          ρ.exposeCaller
          callWith n f b vs) fun v =>
        .go (ρ.frame C (s + 1) (v :: st) cv) := by
    rintro b f vs rfl
    exact sim_instr hi (fun _ _ => by simp only [step, EvalEnv.frame_popN]; rfl)
      (FuelMono.bind (fuelMono_const _) fun _ => callWith_fuelMono _ _ _)
  exact ((hb ρ st cv).bind fun b => (sim_dup hdup).andThen ((hk ρ (b :: b :: st) cv).bind fun _ =>
    (sim_getElem hg).bind fun f =>
      (hargs ρ (f :: b :: st) cv).bind_of (hlen ρ) (hcall b f))).weaken (Nat.zero_le _)

/-- `new F(args)`. -/
theorem Pushes.construct (hf : C.Pushes p q x) (hargs : C.PushesAll q r xs)
    (hlen : ∀ ρ n w vs w', xs ρ n w = .ok vs w' → vs.length = c)
    (hi : C.instrs[r]? = some (.construct c)) :
    C.Pushes p (r + 1) fun ρ n => (do
      let f ← x ρ n
      let vs ← xs ρ n
      ρ.exposeCaller
      EcmaLite.construct n f vs) := by
  intro ρ st cv
  have hnew : ∀ f (vs : List Value), vs.length = c →
      Sim 1 (.go (ρ.frame C r (vs.reverse ++ f :: st) cv))
        (fun n => do
          ρ.exposeCaller
          EcmaLite.construct n f vs) fun v =>
        .go (ρ.frame C (r + 1) (v :: st) cv) := by
    rintro f vs rfl
    exact sim_instr hi (fun _ _ => by simp only [step, EvalEnv.frame_popN]; rfl)
      (FuelMono.bind (fuelMono_const _) fun _ => construct_fuelMono _ _)
  exact ((hf ρ st cv).bind fun f =>
    (hargs ρ (f :: st) cv).bind_of (hlen ρ) (hnew f)).weaken (Nat.zero_le _)

end Calls

section Assignments

variable {x y v : EvalEnv → Nat → Run Value} {k : Nat} {op : AssignOp} {bop : BinaryOp}
  {ρ : EvalEnv} {S : List Value} {cv : Value}

/-- The value a compound assignment stores, computed over the stack `S`: the old value, the right
side, then the operator. -/
theorem sim_stored_some {q' : Nat} {old : Nat → Run Value} (hb : op.binary? = some bop)
    (hold : Sim 0 (.go (ρ.frame C q S cv)) old fun a => .go (ρ.frame C q' (a :: S) cv))
    (hv : C.Pushes q' r v) (hi : C.instrs[r]? = some (Emit.binaryInstr bop)) :
    Sim 0 (.go (ρ.frame C q S cv)) (fun n => op.stored (old n) (v ρ n)) fun a =>
      .go (ρ.frame C (r + 1) (a :: S) cv) :=
  ((hold.bind fun a => (hv ρ (a :: S) cv).bind fun _ => sim_binaryOp bop hi).weaken
    (Nat.zero_le _)).congr fun _ => by simp only [AssignOp.stored, hb]

/-- The value a plain assignment stores: the right side. -/
theorem sim_stored_none {old : Nat → Run Value} (hb : op.binary? = none) (hv : C.Pushes q r v) :
    Sim 0 (.go (ρ.frame C q S cv)) (fun n => op.stored (old n) (v ρ n)) fun a =>
      .go (ρ.frame C r (a :: S) cv) :=
  (hv ρ S cv).congr fun _ => by simp only [AssignOp.stored, hb]

/-- `name = v`: the value is stored and stays on the stack. -/
theorem Pushes.assignVar (hv : C.Pushes p q v) (hs : C.instrs[q]? = some (.setVar k)) :
    C.Pushes p (q + 1) fun ρ n => (do
      let a ← v ρ n
      ρ.write (C.nameAt k) a
      return a) :=
  fun ρ st cv => ((hv ρ st cv).bind fun _ => sim_instr hs
    (fun _ _ => by simp only [step, map_bind, map_pure]; rfl) (fuelMono_const _)).weaken
    (Nat.zero_le _)

/-- `b.name = v`: the object, the value it stores, then the store. -/
theorem Pushes.assignMember (hb : C.Pushes p q x)
    (hv : ∀ ρ b st cv, Sim 0 (.go (ρ.frame C q (b :: st) cv))
      (fun n => op.stored (Run.getProp b (C.nameAt k)) (v ρ n)) fun a =>
        .go (ρ.frame C r (a :: b :: st) cv))
    (hs : C.instrs[r]? = some (.setProp k)) :
    C.Pushes p (r + 1) fun ρ n => (do
      let b ← x ρ n
      let a ← op.stored (Run.getProp b (C.nameAt k)) (v ρ n)
      Run.setProp b (C.nameAt k) a
      return a) :=
  fun ρ st cv => ((hb ρ st cv).bind fun b => (hv ρ b st cv).bind fun _ => sim_instr hs
    (fun _ _ => by simp only [step, map_bind, map_pure]; rfl) (fuelMono_const _)).weaken
    (Nat.zero_le _)

/-- `b[key] = v`: the object, the key, the value it stores, then the store under the key's
text. -/
theorem Pushes.assignIndex (hb : C.Pushes p q x) (hk : C.Pushes q r y)
    (hv : ∀ ρ b key st cv, Sim 0 (.go (ρ.frame C r (key :: b :: st) cv))
      (fun n => op.stored (Run.getElem b key) (v ρ n)) fun a =>
        .go (ρ.frame C s (a :: key :: b :: st) cv))
    (hs : C.instrs[s]? = some .setElem) :
    C.Pushes p (s + 1) fun ρ n => (do
      let b ← x ρ n
      let key ← y ρ n
      let a ← op.stored (Run.getElem b key) (v ρ n)
      Run.setProp b ((← get).text key) a
      return a) :=
  fun ρ st cv => ((hb ρ st cv).bind fun b => (hk ρ (b :: st) cv).bind fun key =>
    (hv ρ b key st cv).bind fun _ => sim_instr hs
      (fun _ _ => by simp only [step, map_bind, map_pure]; rfl) (fuelMono_const _)).weaken
    (Nat.zero_le _)

end Assignments

/-! ## Statements -/

section Effects

variable {x : EvalEnv → Nat → Run Value} {y z : EvalEnv → Nat → Run Unit} {k j : Nat}

theorem Effects.skip : C.Effects p p fun _ _ => pure () := fun _ _ _ => Sim.pure () rfl

/-- Two stretches that only have effects, one after the other. -/
theorem Effects.seq (hy : C.Effects p q y) (hz : C.Effects q r z) :
    C.Effects p r fun ρ n => (do y ρ n; z ρ n) :=
  fun ρ st cv => ((hy ρ st cv).bind fun _ => hz ρ st cv).weaken (Nat.zero_le _)

/-- An expression whose value is dropped. -/
theorem Effects.drop (hx : C.Pushes p q x) (hi : C.instrs[q]? = some .pop) :
    C.Effects p (q + 1) fun ρ n => discard (x ρ n) :=
  fun ρ st cv => (((hx ρ st cv).bind fun _ => (sim_pop hi).andThen (Sim.pure () rfl)).weaken
    (Nat.zero_le _)).congr fun n => by
    show discard (x ρ n) = _
    rw [← bind_pure (discard (x ρ n)), Run.discard_bind]

/-- `name = e` as a declarator: the value is stored, then dropped. -/
theorem Effects.assign (hx : C.Pushes p q x) (hs : C.instrs[q]? = some (.setVar k))
    (hpop : C.instrs[q + 1]? = some .pop) :
    C.Effects p (q + 2) fun ρ n => (do ρ.write (C.nameAt k) (← x ρ n)) := by
  intro ρ st cv
  have hset : ∀ a, Sim 0 (.go (ρ.frame C q (a :: st) cv)) (fun _ => ρ.write (C.nameAt k) a)
      fun _ => .go (ρ.frame C (q + 2) st cv) := fun a =>
    (((sim_instr hs (fun _ _ => by simp only [step]; rfl) (fuelMono_const _)).bind fun _ =>
      (sim_pop hpop).andThen (Sim.pure () rfl)).weaken (Nat.zero_le _)).congr fun _ =>
      (bind_pure _).symm
  exact ((hx ρ st cv).bind hset).weaken (Nat.zero_le _)

/-- `declareVar`: the name is declared in the scope of the run. -/
theorem Effects.declare (hi : C.instrs[p]? = some (.declareVar k)) :
    C.Effects p (p + 1) fun ρ _ => modify (World.declare ρ.scope (C.nameAt k)) :=
  fun _ _ _ => (sim_instr hi (fun _ _ => by simp only [step]; rfl) (fuelMono_const _)).weaken
    (Nat.zero_le _)

/-- A hoisted function declaration: the closure of its code, bound to its name in the scope of
the run. -/
theorem Effects.bindClosure {code : Code} (hi : C.instrs[p]? = some (.makeClosure k))
    (hk : C.funcs[k]? = some code) (hb : C.instrs[p + 1]? = some (.bindFunction j)) :
    C.Effects p (p + 2) fun ρ _ => (do
      let f ← ρ.closure code
      modify (World.bind ρ.scope (C.nameAt j) f)) :=
  fun ρ st cv => ((Pushes.closure hi hk ρ st cv).bind fun _ => sim_instr hb
    (fun _ _ => by simp only [step]; rfl) (fuelMono_const _)).weaken (Nat.zero_le _)

end Effects

section Statements

variable {x : EvalEnv → Nat → Run Value} {y z : EvalEnv → Nat → Value → Run (Exit × Value)}
  {brk cont : Nat}

/-- The same code, with the statement written another way. -/
theorem Performs.congr {y' : EvalEnv → Nat → Value → Run (Exit × Value)}
    (h : C.Performs p q brk cont y) (hy : ∀ ρ n cv, y' ρ n cv = y ρ n cv) :
    C.Performs p q brk cont y' :=
  fun ρ st cv => (h ρ st cv).congr fun n => hy ρ n cv

theorem Performs.skip : C.Performs p p brk cont fun _ _ cv => pure (.normal, cv) :=
  fun _ _ cv => Sim.pure (Exit.normal, cv) rfl

/-- A statement that only has effects. -/
theorem Performs.effects {u : EvalEnv → Nat → Run Unit} (h : C.Effects p q u) :
    C.Performs p q brk cont fun ρ n cv => (do u ρ n; return (.normal, cv)) :=
  fun ρ st cv => ((h ρ st cv).bind fun _ => Sim.pure (Exit.normal, cv) rfl).weaken (Nat.zero_le _)

/-- An expression statement of a script: its value is the new completion value. -/
theorem Performs.expr (hx : C.Pushes p q x) (hi : C.instrs[q]? = some .setCompletion) :
    C.Performs p (q + 1) brk cont fun ρ n _ => (do return (.normal, ← x ρ n)) :=
  fun ρ st cv => ((hx ρ st cv).bind fun v => sim_instr (x := fun _ => pure (Exit.normal, v)) hi
    (fun _ _ => by simp only [step]; rfl) (fuelMono_const _)).weaken (Nat.zero_le _)

/-- Statements in order: the rest runs when the first one ends normally. -/
theorem Performs.cons (hy : C.Performs p q brk cont y) (hz : C.Performs q r brk cont z) :
    C.Performs p r brk cont fun ρ n cv => y ρ n cv >>= fun e => Exit.resume e (z ρ n) := by
  intro ρ st cv
  refine Sim.weaken (c := 0 + 0) ((hy ρ st cv).bind fun e => ?_) (Nat.le_refl _)
  rcases e with ⟨_ | _ | _ | v, cv'⟩
  · exact hz ρ st cv'
  · exact Sim.pure (Exit.breaks, cv') rfl
  · exact Sim.pure (Exit.continues, cv') rfl
  · exact Sim.pure (Exit.returns v, cv') rfl

/-- A statement that ends normally at a jump: it leads where the jump does. -/
theorem Performs.jump (hy : C.Performs p q brk cont y) (hi : C.instrs[q]? = some (.jump r)) :
    C.Performs p r brk cont y := by
  intro ρ st cv
  refine (Sim.weaken (c := 0 + 0) ((hy ρ st cv).bind fun e => ?_) (Nat.le_refl _)).congr
    fun n => (bind_pure (y ρ n cv)).symm
  rcases e with ⟨_ | _ | _ | v, cv'⟩
  · exact ((sim_jump hi).andThen (Sim.pure (Exit.normal, cv') rfl)).weaken (Nat.zero_le _)
  · exact Sim.pure (Exit.breaks, cv') rfl
  · exact Sim.pure (Exit.continues, cv') rfl
  · exact Sim.pure (Exit.returns v, cv') rfl

/-- `if` with an `else`: one branch runs, after the test. -/
theorem Performs.cond (hx : C.Pushes p q x) (hj : C.instrs[q]? = some (.jumpIfFalse (r + 1)))
    (hy : C.Performs (q + 1) r brk cont y) (hk : C.instrs[r]? = some (.jump s))
    (hz : C.Performs (r + 1) s brk cont z) :
    C.Performs p s brk cont fun ρ n cv => (do
      if (← x ρ n).truthy then y ρ n cv else z ρ n cv) := by
  intro ρ st cv
  refine Sim.weaken (c := 0 + 0) ((hx ρ st cv).bind fun v => ?_) (Nat.le_refl _)
  refine Sim.weaken (c := 1 + 0) ((sim_jumpIfFalse hj).andThen ?_) (Nat.zero_le _)
  cases hv : v.truthy
  · simp only [Bool.false_eq_true, ↓reduceIte]
    exact hz ρ st cv
  · simp only [↓reduceIte]
    exact hy.jump hk ρ st cv

/-- `if` without an `else`: the branch runs when the test holds. -/
theorem Performs.ifThen (hx : C.Pushes p q x) (hj : C.instrs[q]? = some (.jumpIfFalse r))
    (hy : C.Performs (q + 1) r brk cont y) :
    C.Performs p r brk cont fun ρ n cv => (do
      if (← x ρ n).truthy then y ρ n cv else return (.normal, cv)) := by
  intro ρ st cv
  refine Sim.weaken (c := 0 + 0) ((hx ρ st cv).bind fun v => ?_) (Nat.le_refl _)
  refine Sim.weaken (c := 1 + 0) ((sim_jumpIfFalse hj).andThen ?_) (Nat.zero_le _)
  cases hv : v.truthy
  · simp only [Bool.false_eq_true, ↓reduceIte]
    exact Sim.pure (Exit.normal, cv) rfl
  · simp only [↓reduceIte]
    exact hy ρ st cv

/-- `break`: a jump to where the loop ends. -/
theorem Performs.breaks (hi : C.instrs[p]? = some (.jump brk)) :
    C.Performs p (p + 1) brk cont fun _ _ cv => pure (.breaks, cv) :=
  fun _ _ cv => ((sim_jump hi).andThen (Sim.pure (Exit.breaks, cv) rfl)).weaken (Nat.zero_le _)

/-- `continue`: a jump to where the loop goes on. -/
theorem Performs.continues (hi : C.instrs[p]? = some (.jump cont)) :
    C.Performs p (p + 1) brk cont fun _ _ cv => pure (.continues, cv) :=
  fun _ _ cv => ((sim_jump hi).andThen (Sim.pure (Exit.continues, cv) rfl)).weaken
    (Nat.zero_le _)

/-- `return e`: the value of `e` leaves the code. -/
theorem Performs.ret (hx : C.Pushes p q x) (hi : C.instrs[q]? = some .ret) :
    C.Performs p (q + 1) brk cont fun ρ n cv => (do return (.returns (← x ρ n), cv)) :=
  fun ρ st cv => ((hx ρ st cv).bind fun v => sim_instr (x := fun _ => pure (Exit.returns v, cv)) hi
    (fun _ _ => by simp only [step]; rfl) (fuelMono_const _)).weaken (Nat.zero_le _)

end Statements

end Code

/-! ## Loops -/

section LoopRounds

open Run

variable {test : Run Bool} {body : Value → Run (Exit × Value)} {next : Run Unit} {k : Nat}
  {cv cv' : Value} {w w1 w2 : World} {e : Fault}

/-! One round of `loop`, by how its test and its body end. -/

theorem loop_test_error (ht : test w = .error e w1) :
    loop test body next (k + 1) cv w = .error e w1 := by
  simp only [loop]
  exact bind_apply_of_error ht

theorem loop_test_false (ht : test w = .ok false w1) :
    loop test body next (k + 1) cv w = .ok (.normal, cv) w1 := by
  simp only [loop]
  rw [bind_apply_of_ok ht]
  rfl

theorem loop_body_error (ht : test w = .ok true w1) (hb : body cv w1 = .error e w2) :
    loop test body next (k + 1) cv w = .error e w2 := by
  simp only [loop]
  rw [bind_apply_of_ok ht]
  exact bind_apply_of_error hb

theorem loop_breaks (ht : test w = .ok true w1) (hb : body cv w1 = .ok (.breaks, cv') w2) :
    loop test body next (k + 1) cv w = .ok (.normal, cv') w2 := by
  simp only [loop]
  rw [bind_apply_of_ok ht]
  exact bind_apply_of_ok hb

theorem loop_returns {v : Value} (ht : test w = .ok true w1)
    (hb : body cv w1 = .ok (.returns v, cv') w2) :
    loop test body next (k + 1) cv w = .ok (.returns v, cv') w2 := by
  simp only [loop]
  rw [bind_apply_of_ok ht]
  exact bind_apply_of_ok hb

/-- A round whose body ends normally or by `continue`: `next`, then the rounds after. -/
theorem loop_again {x : Exit} (ht : test w = .ok true w1) (hb : body cv w1 = .ok (x, cv') w2)
    (hx : x = .normal ∨ x = .continues) :
    loop test body next (k + 1) cv w = (next >>= fun _ => loop test body next k cv') w2 := by
  simp only [loop]
  rw [bind_apply_of_ok ht]
  rcases hx with rfl | rfl <;> exact bind_apply_of_ok hb

end LoopRounds

namespace Code

open Run

variable {C : Code} {ρ : EvalEnv} {st : List Value} {start body nrm cnt exit brk cont : Nat}
  {T : Nat → Run Bool} {B : Nat → Value → Run (Exit × Value)} {U : Nat → Run Unit}

/-- Forward, the machine follows `loop` with any number of rounds: a test at `start` that leads to
`body` or out to `exit`, a body that leads to `nrm` when it ends, to `cnt` on `continue` and out on
`break`, and from `nrm` and `cnt` a stretch running `U` back to `start`. -/
theorem loop_forward
    (hT : ∀ cv, Forward (.go (ρ.frame C start st cv)) T fun b =>
      .go (ρ.frame C (if b then body else exit) st cv))
    (hB : ∀ cv, Forward (.go (ρ.frame C body st cv)) (fun n => B n cv) (ρ.after C st nrm exit cnt))
    (hN : ∀ cv, Forward (.go (ρ.frame C nrm st cv)) U fun _ => .go (ρ.frame C start st cv))
    (hC : ∀ cv, Forward (.go (ρ.frame C cnt st cv)) U fun _ => .go (ρ.frame C start st cv))
    (k : Nat) (cv : Value) :
    Forward (.go (ρ.frame C start st cv)) (fun n => loop (T n) (B n) (U n) k cv)
      (ρ.after C st exit brk cont) := by
  induction k generalizing cv with
  | zero =>
    -- no round left: the evaluator runs out of fuel
    refine ⟨fun _ _ _ _ h => ?_, fun _ _ _ _ h he => ?_⟩
    · simp only [loop] at h
      cases h
    · simp only [loop] at h
      cases h
      cases he
  | succ k ih =>
    simp only [loop]
    refine (hT cv).bind fun b => ?_
    cases b
    · simp only [Bool.not_false, ↓reduceIte, Bool.false_eq_true]
      exact Forward.pure (Exit.normal, cv) rfl
    · simp only [Bool.not_true, ↓reduceIte, Bool.false_eq_true]
      refine (hB cv).bind fun r => ?_
      rcases r with ⟨_ | _ | _ | v, cv'⟩
      · exact (hN cv').bind fun _ => ih cv'
      · exact Forward.pure (Exit.normal, cv') rfl
      · exact (hC cv').bind fun _ => ih cv'
      · exact Forward.pure (Exit.returns v, cv') rfl

/-- Back, a finished run of the machine from `start` with fuel `N` follows `loop` run with fuel
`N` or more and as many rounds: every round passes at least one instruction, so the machine makes
fewer than `N` of them. The rounds are followed by induction on the fuel of the run. -/
theorem loop_back {cT cN cC : Nat}
    (hT : ∀ cv, Sim cT (.go (ρ.frame C start st cv)) T fun b =>
      .go (ρ.frame C (if b then body else exit) st cv))
    (hB : ∀ cv, Sim 0 (.go (ρ.frame C body st cv)) (fun n => B n cv) (ρ.after C st nrm exit cnt))
    (hN : ∀ cv, Sim cN (.go (ρ.frame C nrm st cv)) U fun _ => .go (ρ.frame C start st cv))
    (hC : ∀ cv, Sim cC (.go (ρ.frame C cnt st cv)) U fun _ => .go (ρ.frame C start st cv))
    (hcN : 1 ≤ cT + cN) (hcC : 1 ≤ cT + cC) (N : Nat) (cv : Value) (w : World)
    (r : EStateM.Result Fault World Value) (hr : (Next.go (ρ.frame C start st cv)).RunsIn N w r) :
    (∃ a w' m, m ≤ N ∧ (∀ n k, N ≤ n → N ≤ k → loop (T n) (B n) (U n) k cv w = .ok a w') ∧
      (ρ.after C st exit brk cont a).RunsIn m w' r) ∨
    (∃ e w', (∀ n k, N ≤ n → N ≤ k → loop (T n) (B n) (U n) k cv w = .error e w') ∧
      r = .error e w') := by
  induction N using Nat.strong_induction_on generalizing cv w with
  | _ N ih =>
  have hpos : 0 < N := Nat.pos_of_ne_zero fun h => Next.not_runsIn_go_zero (h ▸ hr)
  have hround : ∀ k, N ≤ k → ∃ k', k = k' + 1 := fun k hk => ⟨k - 1, by omega⟩
  -- a body that ends normally or by `continue` leads to a stretch running `U` back to `start`
  have hback : ∀ x cv', x = .normal ∨ x = .continues → ∃ q cU,
      ρ.after C st nrm exit cnt (x, cv') = .go (ρ.frame C q st cv') ∧ 1 ≤ cT + cU ∧
        ∀ cv, Sim cU (.go (ρ.frame C q st cv)) U fun _ => .go (ρ.frame C start st cv) := by
    rintro x cv' (rfl | rfl)
    · exact ⟨nrm, cN, rfl, hcN, hN⟩
    · exact ⟨cnt, cC, rfl, hcC, hC⟩
  rcases (hT cv).back N w r hr with ⟨b, w1, m1, hm1, hT', hk1⟩ | ⟨e, w1, hT', rfl⟩
  · cases b
    · -- the test fails: the loop ends normally
      refine .inl ⟨(.normal, cv), w1, m1, by omega, fun n k hn hk => ?_, hk1⟩
      obtain ⟨k', rfl⟩ := hround _ hk
      exact loop_test_false (hT' n hn)
    rcases (hB cv).back m1 w1 r hk1 with ⟨⟨x, cv'⟩, w2, m2, hm2, hB', hk2⟩ | ⟨e, w2, hB', rfl⟩
    · -- `break` and `return` leave the loop; the other ends go round again
      have hx : x = .breaks ∨ (∃ v, x = .returns v) ∨ x = .normal ∨ x = .continues := by
        cases x <;> simp
      rcases hx with rfl | ⟨v, rfl⟩ | hx
      · refine .inl ⟨(.normal, cv'), w2, m2, by omega, fun n k hn hk => ?_, hk2⟩
        obtain ⟨k', rfl⟩ := hround _ hk
        exact loop_breaks (hT' n hn) (hB' n (by omega))
      · refine .inl ⟨(.returns v, cv'), w2, m2, by omega, fun n k hn hk => ?_, hk2⟩
        obtain ⟨k', rfl⟩ := hround _ hk
        exact loop_returns (hT' n hn) (hB' n (by omega))
      -- the rounds after this one start with less fuel
      obtain ⟨q, cU, hq, hcost, hU⟩ := hback x cv' hx
      rw [hq] at hk2
      rcases (hU cv').back m2 w2 r hk2 with ⟨_, w3, m3, hm3, hU', hk3⟩ | ⟨e, w3, hU', rfl⟩
      · rcases ih m3 (by omega) cv' w3 hk3 with ⟨a, w', m, hm, hL, hk⟩ | ⟨e, w', hL, rfl⟩
        · refine .inl ⟨a, w', m, by omega, fun n k hn hk => ?_, hk⟩
          obtain ⟨k', rfl⟩ := hround _ hk
          rw [loop_again (hT' n hn) (hB' n (by omega)) hx, bind_apply_of_ok (hU' n (by omega))]
          exact hL n k' (by omega) (by omega)
        · refine .inr ⟨e, w', fun n k hn hk => ?_, rfl⟩
          obtain ⟨k', rfl⟩ := hround _ hk
          rw [loop_again (hT' n hn) (hB' n (by omega)) hx, bind_apply_of_ok (hU' n (by omega))]
          exact hL n k' (by omega) (by omega)
      · refine .inr ⟨e, w3, fun n k hn hk => ?_, rfl⟩
        obtain ⟨k', rfl⟩ := hround _ hk
        rw [loop_again (hT' n hn) (hB' n (by omega)) hx]
        exact bind_apply_of_error (hU' n (by omega))
    · refine .inr ⟨e, w2, fun n k hn hk => ?_, rfl⟩
      obtain ⟨k', rfl⟩ := hround _ hk
      exact loop_body_error (hT' n hn) (hB' n (by omega))
  · refine .inr ⟨e, w1, fun n k hn hk => ?_, rfl⟩
    obtain ⟨k', rfl⟩ := hround _ hk
    exact loop_test_error (hT' n hn)

/-- A loop of code `C` runs as the evaluator's `loop` with as many rounds as it has fuel: a test at
`start` that leads to `body` or out to `exit`, a body that leads to `nrm` when it ends, to `cnt` on
`continue` and out on `break`, from `nrm` and `cnt` a stretch running `U` back to `start`, and at
least one instruction passed in every round. -/
theorem loop_sim {cT cN cC : Nat}
    (hT : ∀ cv, Sim cT (.go (ρ.frame C start st cv)) T fun b =>
      .go (ρ.frame C (if b then body else exit) st cv))
    (hB : ∀ cv, Sim 0 (.go (ρ.frame C body st cv)) (fun n => B n cv) (ρ.after C st nrm exit cnt))
    (hN : ∀ cv, Sim cN (.go (ρ.frame C nrm st cv)) U fun _ => .go (ρ.frame C start st cv))
    (hC : ∀ cv, Sim cC (.go (ρ.frame C cnt st cv)) U fun _ => .go (ρ.frame C start st cv))
    (hcN : 1 ≤ cT + cN) (hcC : 1 ≤ cT + cC) (cv : Value) :
    Sim 0 (.go (ρ.frame C start st cv)) (fun n => loop (T n) (B n) (U n) n cv)
      (ρ.after C st exit brk cont) where
  toForward := by
    -- forward, the rounds the evaluator makes with fuel `n` are `n` rounds of any loop
    refine ⟨fun n w a w' h => ?_, fun n w e w' h => ?_⟩
    all_goals
      have hF : Forward (.go (ρ.frame C start st cv)) (fun m => loop (T m) (B m) (U m) n cv)
          (ρ.after C st exit brk cont) :=
        loop_forward (fun cv => (hT cv).toForward) (fun cv => (hB cv).toForward)
          (fun cv => (hN cv).toForward) (fun cv => (hC cv).toForward) n cv
    · exact hF.ok n w a w' h
    · exact hF.error n w e w' h
  back N w r hr := by
    rcases loop_back hT hB hN hC hcN hcC N cv w r hr with ⟨a, w', m, hm, hL, hk⟩ | ⟨e, w', hL, rfl⟩
    · exact .inl ⟨a, w', m, by omega, fun n hn => hL n n hn hn, hk⟩
    · exact .inr ⟨e, w', fun n hn => hL n n hn hn, rfl⟩

/-- A loop test: the value pushed from `p`, then the jump at `t` out to `e` when it is falsy. -/
theorem sim_test {x : EvalEnv → Nat → Run Value} {p t e : Nat} (hx : C.Pushes p t x)
    (hj : C.instrs[t]? = some (.jumpIfFalse e)) (ρ : EvalEnv) (st : List Value) (cv : Value) :
    Sim 1 (.go (ρ.frame C p st cv)) (fun n => do return (← x ρ n).truthy) fun b =>
      .go (ρ.frame C (if b then t + 1 else e) st cv) :=
  Sim.weaken (c := 0 + (1 + 0))
    ((hx ρ st cv).bind fun v => (sim_jumpIfFalse hj).andThen (Sim.pure v.truthy rfl))
    (Nat.le_refl _)

/-- A statement after code that only has effects. -/
theorem Performs.after_effects {u : EvalEnv → Nat → Run Unit}
    {y : EvalEnv → Nat → Value → Run (Exit × Value)} {p q r : Nat} (hu : C.Effects p q u)
    (hy : C.Performs q r brk cont y) :
    C.Performs p r brk cont fun ρ n cv => (do u ρ n; y ρ n cv) :=
  fun ρ st cv => ((hu ρ st cv).bind fun _ => hy ρ st cv).weaken (Nat.zero_le _)

/-- `while`: the test from `p` with its jump out at `t`, the body from `t + 1` to `b`, and the
jump back to the test at `b`; in the body, `break` leads past that jump and `continue` back to
the test. -/
theorem Performs.whileLoop {x : EvalEnv → Nat → Run Value}
    {y : EvalEnv → Nat → Value → Run (Exit × Value)} {p t b : Nat} (hx : C.Pushes p t x)
    (hj : C.instrs[t]? = some (.jumpIfFalse (b + 1))) (hy : C.Performs (t + 1) b (b + 1) p y)
    (hk : C.instrs[b]? = some (.jump p)) :
    C.Performs p (b + 1) brk cont fun ρ n cv =>
      loop (do return (← x ρ n).truthy) (y ρ n) (pure ()) n cv :=
  fun ρ st cv => loop_sim (T := fun n => do return (← x ρ n).truthy) (U := fun _ => pure ())
    (fun cv => sim_test hx hj ρ st cv) (fun cv => hy ρ st cv) (fun _ => sim_jump hk)
    (fun _ => Sim.pure () rfl) (by omega) (by omega) cv

/-- `for` after its first clause: a test from `p` that leads to the body at `q` or out to `e`,
the body from `q` to `r`, the update from `r` to `u`, and the jump back to the test at `u`; in
the body, `break` leads out and `continue` to the update. -/
theorem Performs.forLoop {T : EvalEnv → Nat → Run Bool} {U : EvalEnv → Nat → Run Unit}
    {y : EvalEnv → Nat → Value → Run (Exit × Value)} {p q r u e cT : Nat}
    (hT : ∀ ρ st cv, Sim cT (.go (ρ.frame C p st cv)) (T ρ) fun b =>
      .go (ρ.frame C (if b then q else e) st cv))
    (hy : C.Performs q r e r y) (hU : C.Effects r u U) (hk : C.instrs[u]? = some (.jump p)) :
    C.Performs p e brk cont fun ρ n cv => loop (T ρ n) (y ρ n) (U ρ n) n cv := by
  intro ρ st cv
  -- the update and the jump back pass at least the jump, so every round passes an instruction
  have hN : ∀ cv, Sim (0 + 1) (.go (ρ.frame C r st cv)) (U ρ) fun _ => .go (ρ.frame C p st cv) :=
    fun cv => ((hU ρ st cv).bind fun _ => sim_jump hk).congr fun n => (bind_pure (U ρ n)).symm
  exact loop_sim (hT ρ st) (fun cv => hy ρ st cv) hN hN (by omega) (by omega) cv

end Code

end EcmaLite
