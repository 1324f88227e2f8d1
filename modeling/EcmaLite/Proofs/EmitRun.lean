import EcmaLite.Proofs.StackPlan
import EcmaLite.Code.Compile

/-!
# Running the emitter

What each step of compilation does to the emitter, and the shape of a stretch of code it appends.

Every compile step appends code, keeps what is already written (`Emitter.Extends`), and may leave
`break` and `continue` jumps of the innermost open loop to be aimed when the loop closes. The code
it appends is described by a plan for the stretch (`Planned`): every instruction in the stretch
runs as planned and jumps only within it, except those loop exits, which are `jump`s at an empty
stack. `Emits m entry exit` says that `m`, run from any sound emitter, appends such a stretch, from
shape `entry s` to shape `exit s`, whatever the shape `s` below.
-/

namespace EcmaLite

/-! ## Running steps -/

namespace Emit

variable {α β : Type} {E E' : Emitter}

theorem except_ok_bind {ε : Type} {a : α} {f : α → Except ε β} : (Except.ok a >>= f) = f a := rfl

theorem run_bind_ok {x : Emit α} {f : α → Emit β} {b : β} (h : (x >>= f).run E = .ok (b, E')) :
    ∃ a E1, x.run E = .ok (a, E1) ∧ (f a).run E1 = .ok (b, E') := by
  rw [StateT.run_bind] at h
  cases hx : x.run E with
  | error e =>
    rw [hx] at h
    cases h
  | ok p => exact ⟨p.1, p.2, rfl, by rw [hx] at h; exact h⟩

@[simp] theorem run_emit (i : Instr) :
    (emit i).run E = .ok (E.instrs.size, { E with instrs := E.instrs.push i }) := rfl

@[simp] theorem run_discard_emit (i : Instr) :
    (discard (emit i)).run E = .ok ((), { E with instrs := E.instrs.push i }) := rfl

@[simp] theorem run_here : here.run E = .ok (E.instrs.size, E) := rfl

@[simp] theorem run_const (c : Const) :
    (const c).run E = .ok (E.consts.size, { E with consts := E.consts.push c }) := rfl

@[simp] theorem run_aim (pos target : Nat) :
    (aim pos target).run E =
      .ok ((), { E with instrs := E.instrs.modify pos (Instr.retarget target) }) := rfl

@[simp] theorem run_aimHere (pos : Nat) :
    (aimHere pos).run E =
      .ok ((), { E with instrs := E.instrs.modify pos (Instr.retarget E.instrs.size) }) := rfl

@[simp] theorem run_enterLoop :
    enterLoop.run E = .ok ((), { E with loops := ⟨[], []⟩ :: E.loops }) := rfl

@[simp] theorem run_addFunction (c : Code) :
    (addFunction c).run E = .ok (E.funcs.size, { E with funcs := E.funcs.push c }) := rfl

/-- A name gives its index in the table, added at the end when it is new. -/
theorem run_name (n : String) : (name n).run E = .ok ((E.names.idxOf? n).elim
    (E.names.size, { E with names := E.names.push n }) fun i => (i, E)) := by
  show Except.ok _ = _
  beta_reduce
  split
  · next i hidx => rw [hidx, Option.elim_some]
  · next hidx => rw [hidx, Option.elim_none]

/-- A name's index is in the table afterwards, and only the name table may have grown. -/
theorem name_run {n : String} {k : Nat} (h : (name n).run E = .ok (k, E')) :
    k < E'.names.size ∧ E.names.size ≤ E'.names.size ∧ E' = { E with names := E'.names } := by
  rw [run_name] at h
  cases hidx : E.names.idxOf? n with
  | none =>
    rw [hidx, Option.elim_none] at h
    cases h
    exact ⟨by simp, by simp, rfl⟩
  | some i =>
    rw [hidx, Option.elim_some] at h
    cases h
    rw [Array.idxOf?_eq_map_finIdxOf?_val] at hidx
    obtain ⟨fi, -, rfl⟩ := Option.map_eq_some_iff.mp hidx
    exact ⟨fi.isLt, Nat.le_refl _, rfl⟩

end Emit

/-! ## Aiming jumps -/

namespace Instr

@[simp] theorem retarget_jump (t t' : Nat) : (Instr.jump t').retarget t = .jump t := rfl

theorem retarget_retarget (t t' : Nat) (i : Instr) : (i.retarget t').retarget t = i.retarget t := by
  cases i <;> rfl

@[simp] theorem constRef?_retarget (t : Nat) (i : Instr) :
    (i.retarget t).constRef? = i.constRef? := by
  cases i <;> rfl

@[simp] theorem nameRef?_retarget (t : Nat) (i : Instr) :
    (i.retarget t).nameRef? = i.nameRef? := by
  cases i <;> rfl

@[simp] theorem funcRef?_retarget (t : Nat) (i : Instr) :
    (i.retarget t).funcRef? = i.funcRef? := by
  cases i <;> rfl

@[simp] theorem target?_retarget (t : Nat) (i : Instr) :
    (i.retarget t).target? = i.target?.map fun _ => t := by
  cases i <;> rfl

end Instr

/-- Aims every jump at the indices `js` at `t`. -/
def aimAll (is : Array Instr) (js : List Nat) (t : Nat) : Array Instr :=
  js.foldl (fun is j => is.modify j (Instr.retarget t)) is

@[simp] theorem size_aimAll (is : Array Instr) (js : List Nat) (t : Nat) :
    (aimAll is js t).size = is.size := by
  induction js generalizing is with
  | nil => rfl
  | cons j js ih =>
    simp only [aimAll, List.foldl_cons] at ih ⊢
    rw [ih, Array.size_modify]

theorem getElem?_aimAll (is : Array Instr) (js : List Nat) (t n : Nat) :
    (aimAll is js t)[n]? = if n ∈ js then is[n]?.map (Instr.retarget t) else is[n]? := by
  induction js generalizing is with
  | nil => simp [aimAll]
  | cons j js ih =>
    simp only [aimAll, List.foldl_cons] at ih ⊢
    rw [ih, Array.getElem?_modify]
    by_cases hn : n ∈ js
    · have hr : Instr.retarget t ∘ Instr.retarget t = Instr.retarget t :=
        funext (Instr.retarget_retarget t t)
      by_cases hj : j = n
      · simp only [hn, hj, if_true, List.mem_cons, or_true, Option.map_map, hr]
      · simp only [hn, hj, if_true, if_false, List.mem_cons, or_true]
    · by_cases hj : j = n
      · simp only [hn, hj, if_true, if_false, List.mem_cons, true_or]
      · simp only [hn, hj, if_false, List.mem_cons, Ne.symm hj, false_or]

namespace Emit

variable {E : Emitter}

/-- A loop over a list whose body only changes the emitter. -/
theorem run_forIn_modify (js : List Nat) (g : Nat → Emitter → Emitter)
    (f : Nat → PUnit → Emit (ForInStep PUnit))
    (hf : ∀ j E, (f j PUnit.unit).run E = .ok (.yield PUnit.unit, g j E)) :
    (forIn js PUnit.unit f).run E = .ok (PUnit.unit, js.foldl (fun E j => g j E) E) := by
  induction js generalizing E with
  | nil => rfl
  | cons j js ih =>
    rw [List.forIn_cons, StateT.run_bind, hf]
    exact ih

theorem foldl_aim (js : List Nat) (t : Nat) :
    js.foldl (fun E j => { E with instrs := E.instrs.modify j (Instr.retarget t) }) E =
      { E with instrs := aimAll E.instrs js t } := by
  induction js generalizing E with
  | nil => rfl
  | cons j js ih => exact ih

theorem foldl_aimHere (js : List Nat) :
    js.foldl (fun E j => { E with instrs := E.instrs.modify j (Instr.retarget E.instrs.size) })
      E = { E with instrs := aimAll E.instrs js E.instrs.size } := by
  induction js generalizing E with
  | nil => rfl
  | cons j js ih =>
    rw [List.foldl_cons, ih]
    simp only [Array.size_modify]
    rfl

/-- Closing a loop aims its `continue`s at `t` and its `break`s at the next instruction. -/
theorem run_leaveLoop {t : Nat} {l : LoopJumps} {rest : List LoopJumps} (hl : E.loops = l :: rest) :
    (leaveLoop t).run E = .ok ((), { E with
      loops := rest
      instrs := aimAll (aimAll E.instrs l.continues t) l.breaks E.instrs.size }) := by
  have hget : (leaveLoop t).run E = (do
      modify fun e : Emitter => { e with loops := rest }
      forIn l.continues PUnit.unit fun j (_ : PUnit) => do
        aim j t
        pure (ForInStep.yield PUnit.unit)
      forIn l.breaks PUnit.unit fun j (_ : PUnit) => do
        aimHere j
        pure (ForInStep.yield PUnit.unit)
      pure () : Emit Unit).run E := by
    unfold leaveLoop
    rw [StateT.run_bind]
    simp only [StateT.run_get, pure_bind, hl]
  rw [hget, StateT.run_bind, StateT.run_modify]
  simp only [pure_bind]
  rw [StateT.run_bind, run_forIn_modify l.continues
    (fun j E => { E with instrs := E.instrs.modify j (Instr.retarget t) }) _ fun _ _ => rfl,
    foldl_aim]
  simp only [except_ok_bind]
  rw [StateT.run_bind, run_forIn_modify l.breaks
    (fun j E => { E with instrs := E.instrs.modify j (Instr.retarget E.instrs.size) }) _
    fun _ _ => rfl, foldl_aimHere]
  simp only [except_ok_bind, size_aimAll]
  rfl

theorem run_aimExit (exit : Option Nat) : (aimExit exit).run E = .ok ((), exit.elim E fun j =>
    { E with instrs := E.instrs.modify j (Instr.retarget E.instrs.size) }) := by
  cases exit <;> rfl

/-- Outside every loop, a loop exit is a fault. -/
theorem run_loopExit_ne_ok {b : Bool} (hl : E.loops = []) (E' : Emitter) :
    (loopExit b).run E ≠ .ok ((), E') := by
  unfold loopExit
  rw [StateT.run_bind, run_emit]
  simp only [except_ok_bind]
  rw [StateT.run_bind, StateT.run_get]
  simp only [pure_bind, hl]
  intro h
  cases h

/-- A loop exit is a `jump` to be aimed when the loop closes. -/
theorem run_loopExit {b : Bool} {l : LoopJumps} {rest : List LoopJumps}
    (hl : E.loops = l :: rest) :
    (loopExit b).run E = .ok ((), { E with
      instrs := E.instrs.push (.jump 0)
      loops := (if b then { l with breaks := E.instrs.size :: l.breaks }
        else { l with continues := E.instrs.size :: l.continues }) :: rest }) := by
  unfold loopExit
  rw [StateT.run_bind, run_emit]
  simp only [except_ok_bind]
  rw [StateT.run_bind, StateT.run_get]
  simp only [pure_bind, hl]
  rfl

end Emit


/-! ## Code with jumps aimed again -/

/-- `is'` is `is` with some of its jumps aimed at indices up to `m`. -/
def Reaimed (is is' : Array Instr) (m : Nat) : Prop :=
  is'.size = is.size ∧
    ∀ n : Nat, is'[n]? = is[n]? ∨ ∃ u ≤ m, is'[n]? = is[n]?.map (Instr.retarget u)

namespace Reaimed

variable {is is' is'' : Array Instr} {m : Nat}

theorem trans (h : Reaimed is is' m) (h' : Reaimed is' is'' m) : Reaimed is is'' m := by
  refine ⟨h'.1.trans h.1, fun n => ?_⟩
  rcases h'.2 n with h'n | ⟨u, hu, h'n⟩
  · rw [h'n]
    exact h.2 n
  · right
    refine ⟨u, hu, ?_⟩
    rcases h.2 n with hn | ⟨u', -, hn⟩
    · rw [h'n, hn]
    · rw [h'n, hn, Option.map_map]
      congr 1
      exact funext (Instr.retarget_retarget u u')

theorem modify {j t : Nat} (ht : t ≤ m) : Reaimed is (is.modify j (Instr.retarget t)) m := by
  refine ⟨Array.size_modify .., fun n => ?_⟩
  rw [Array.getElem?_modify]
  by_cases hj : j = n
  · exact .inr ⟨t, ht, by rw [if_pos hj]⟩
  · exact .inl (by rw [if_neg hj])

theorem aimAll {js : List Nat} {t : Nat} (ht : t ≤ m) : Reaimed is (EcmaLite.aimAll is js t) m := by
  refine ⟨size_aimAll .., fun n => ?_⟩
  rw [getElem?_aimAll]
  by_cases hn : n ∈ js
  · exact .inr ⟨t, ht, by rw [if_pos hn]⟩
  · exact .inl (by rw [if_neg hn])

/-- An instruction of the new code is one of the old ones, perhaps aimed again. -/
theorem mem (h : Reaimed is is' m) {i : Instr} (hi : i ∈ is') :
    i ∈ is ∨ ∃ i' ∈ is, ∃ u ≤ m, i = i'.retarget u := by
  obtain ⟨n, hn⟩ := Array.mem_iff_getElem?.mp hi
  rcases h.2 n with h' | ⟨u, hu, h'⟩
  · rw [h'] at hn
    exact .inl (Array.mem_of_getElem? hn)
  · rw [h'] at hn
    obtain ⟨i', hi', rfl⟩ := Option.map_eq_some_iff.mp hn
    exact .inr ⟨i', Array.mem_of_getElem? hi', u, hu, rfl⟩

end Reaimed

/-! ## Emitters and the code they write -/

namespace Emitter

variable {E E' E'' : Emitter}

/-- The jumps of the innermost open loop still to be aimed. -/
def exits (E : Emitter) : List Nat :=
  match E.loops with
  | l :: _ => l.breaks ++ l.continues
  | [] => []

/-- Every table index in range, every jump within the code written so far or to the next
instruction, every exit of the innermost loop written, and every function literal compiled so
far well formed. -/
structure Ok (E : Emitter) : Prop where
  consts : ∀ i ∈ E.instrs, ∀ k, i.constRef? = some k → k < E.consts.size
  names : ∀ i ∈ E.instrs, ∀ k, i.nameRef? = some k → k < E.names.size
  funcs : ∀ i ∈ E.instrs, ∀ k, i.funcRef? = some k → k < E.funcs.size
  targets : ∀ i ∈ E.instrs, ∀ t, i.target? = some t → t ≤ E.instrs.size
  exits : ∀ j ∈ E.exits, j < E.instrs.size
  code : ∀ c ∈ E.funcs, c.WellFormed false

/-- The code grows, and the exits of the innermost open loop grow only by jumps written since. -/
structure ExitsGrow (E E' : Emitter) : Prop where
  size : E.instrs.size ≤ E'.instrs.size
  exits : ∀ j ∈ E.exits, j ∈ E'.exits
  fresh : ∀ j ∈ E'.exits, j ∈ E.exits ∨ (E.instrs.size ≤ j ∧ j < E'.instrs.size)

theorem ExitsGrow.refl (E : Emitter) : E.ExitsGrow E :=
  ⟨Nat.le_refl _, fun _ hj => hj, fun _ hj => .inl hj⟩

theorem ExitsGrow.trans (h : E.ExitsGrow E') (h' : E'.ExitsGrow E'') : E.ExitsGrow E'' where
  size := Nat.le_trans h.size h'.size
  exits j hj := h'.exits j (h.exits j hj)
  fresh j hj := by
    rcases h'.fresh j hj with hj' | ⟨hlo, hhi⟩
    · rcases h.fresh j hj' with hj'' | ⟨hlo', hhi'⟩
      · exact .inl hj''
      · exact .inr ⟨hlo', Nat.lt_of_lt_of_le hhi' h'.size⟩
    · exact .inr ⟨Nat.le_trans h.size hlo, hhi⟩

/-- New code in place of the old, as long as it is no shorter, leaves the loops alone. -/
theorem exitsGrow_instrs {is : Array Instr} (h : E.instrs.size ≤ is.size) :
    E.ExitsGrow { E with instrs := is } :=
  ⟨h, fun _ hj => hj, fun _ hj => .inl hj⟩

/-- What a compile step from `E` may do: append code and keep what is written, grow the tables,
and add exits to the innermost open loop, leaving the loops around it as they are. -/
structure Extends (E E' : Emitter) : Prop where
  ok : E'.Ok
  grow : E.ExitsGrow E'
  kept : ∀ n, n < E.instrs.size → E'.instrs[n]? = E.instrs[n]?
  consts : E.consts.size ≤ E'.consts.size
  names : E.names.size ≤ E'.names.size
  funcs : E.funcs.size ≤ E'.funcs.size
  depth : E'.loops.length = E.loops.length
  outer : E'.loops.tail = E.loops.tail
  isScript : E'.isScript = E.isScript

theorem Extends.size (h : E.Extends E') : E.instrs.size ≤ E'.instrs.size := h.grow.size

theorem Extends.refl (h : E.Ok) : E.Extends E where
  ok := h
  grow := ExitsGrow.refl E
  kept _ _ := rfl
  consts := Nat.le_refl _
  names := Nat.le_refl _
  funcs := Nat.le_refl _
  depth := rfl
  outer := rfl
  isScript := rfl

theorem Extends.trans (h : E.Extends E') (h' : E'.Extends E'') : E.Extends E'' where
  ok := h'.ok
  grow := h.grow.trans h'.grow
  kept n hn := (h'.kept n (Nat.lt_of_lt_of_le hn h.size)).trans (h.kept n hn)
  consts := Nat.le_trans h.consts h'.consts
  names := Nat.le_trans h.names h'.names
  funcs := Nat.le_trans h.funcs h'.funcs
  depth := h'.depth.trans h.depth
  outer := h'.outer.trans h.outer
  isScript := h'.isScript.trans h.isScript

/-- Aiming jumps at indices within the code keeps an emitter sound. -/
theorem Ok.reaim (hE : E.Ok) {is : Array Instr} (h : Reaimed E.instrs is E.instrs.size) :
    ({ E with instrs := is } : Emitter).Ok where
  consts i hi k hk := by
    rcases h.mem hi with hi' | ⟨i', hi', u, -, rfl⟩
    · exact hE.consts i hi' k hk
    · exact hE.consts i' hi' k (by simpa using hk)
  names i hi k hk := by
    rcases h.mem hi with hi' | ⟨i', hi', u, -, rfl⟩
    · exact hE.names i hi' k hk
    · exact hE.names i' hi' k (by simpa using hk)
  funcs i hi k hk := by
    rcases h.mem hi with hi' | ⟨i', hi', u, -, rfl⟩
    · exact hE.funcs i hi' k hk
    · exact hE.funcs i' hi' k (by simpa using hk)
  targets i hi t ht := by
    show t ≤ is.size
    rw [h.1]
    rcases h.mem hi with hi' | ⟨i', hi', u, hu, rfl⟩
    · exact hE.targets i hi' t ht
    · obtain ⟨_, -, rfl⟩ := Option.map_eq_some_iff.mp ((Instr.target?_retarget u i').symm.trans ht)
      exact hu
  exits j hj := by
    show j < is.size
    rw [h.1]
    exact hE.exits j hj
  code := hE.code

/-- Aiming jumps written after `E` keeps an extension of `E`. -/
theorem Extends.reaim (h : E.Extends E') {is : Array Instr} (hr : Reaimed E'.instrs is E'.instrs.size)
    (hkept : ∀ n, n < E.instrs.size → is[n]? = E'.instrs[n]?) :
    E.Extends { E' with instrs := is } where
  ok := h.ok.reaim hr
  grow := ⟨by rw [show is.size = _ from hr.1]; exact h.size, h.grow.exits, fun j hj => by
    rcases h.grow.fresh j hj with hj' | ⟨hlo, hhi⟩
    · exact .inl hj'
    · exact .inr ⟨hlo, by rw [show is.size = _ from hr.1]; exact hhi⟩⟩
  kept n hn := (hkept n hn).trans (h.kept n hn)
  consts := h.consts
  names := h.names
  funcs := h.funcs
  depth := h.depth
  outer := h.outer
  isScript := h.isScript

/-- A loop exit that the step from `E` to `E'` left to be aimed. -/
def NewExit (E E' : Emitter) (j : Nat) : Prop := j ∈ E'.exits ∧ j ∉ E.exits

/-- A new exit of a first step is a new exit of it and a second step. -/
theorem newExit_left_iff (h' : E'.ExitsGrow E'') {j : Nat}
    (hj : j < E'.instrs.size) : E.NewExit E'' j ↔ E.NewExit E' j := by
  constructor
  · rintro ⟨hj'', hjE⟩
    rcases h'.fresh j hj'' with hj' | ⟨hlo, -⟩
    · exact ⟨hj', hjE⟩
    · exact absurd hj (Nat.not_lt_of_le hlo)
  · rintro ⟨hj', hjE⟩
    exact ⟨h'.exits j hj', hjE⟩

/-- A new exit of a second step is a new exit of both. -/
theorem newExit_right_iff (h : E.ExitsGrow E') {j : Nat}
    (hj : E'.instrs.size ≤ j) : E.NewExit E'' j ↔ E'.NewExit E'' j := by
  constructor
  · rintro ⟨hj'', hjE⟩
    refine ⟨hj'', fun hj' => ?_⟩
    rcases h.fresh j hj' with hjE' | ⟨-, hhi⟩
    · exact hjE hjE'
    · exact absurd hj (Nat.not_le_of_lt hhi)
  · rintro ⟨hj'', hj'⟩
    exact ⟨hj'', fun hjE => hj' (h.exits j hjE)⟩

end Emitter

/-! ## Planned stretches of code -/

/-- Instructions `p` to `q` of `is` run as plan `a` says and jump only to indices `lo` to `hi`;
the loop exits `X` among them are `jump`s at an empty stack, to be aimed later. -/
structure Planned (is : Array Instr) (a : Nat → StackShape) (X : Nat → Prop) (p q lo hi : Nat) :
    Prop where
  step : ∀ n, p ≤ n → n < q → ¬X n → ∃ i, is[n]? = some i ∧ PlanStep a n i ∧
    ∀ t, i.target? = some t → lo ≤ t ∧ t ≤ hi
  exit : ∀ n, p ≤ n → n < q → X n → is[n]? = some (.jump 0) ∧ a n = []

namespace PlanStep

variable {a b : Nat → StackShape} {n : Nat}

theorem congr {i : Instr} (h : PlanStep a n i) (hn : b n = a n)
    (hnext : i.falls → b (n + 1) = a (n + 1))
    (hjump : ∀ t, i.target? = some t → b t = a t) : PlanStep b n i where
  fits := hn ▸ h.fits
  next hf := by
    rw [hn, hnext hf]
    exact h.next hf
  jump t ht := by
    rw [hn, hjump t ht]
    exact h.jump t ht

/-- A `jump` between two places of the same shape. -/
theorem of_jump {t : Nat} {s : StackShape} (hn : a n = s) (ht : a t = s) : PlanStep a n (.jump t) where
  fits := ⟨Nat.zero_le _, fun _ h => by cases h⟩
  next h := by cases h
  jump t' ht' := by
    cases ht'
    rw [hn, ht]
    exact StackShape.Weaker.refl _

/-- A conditional jump takes the value on top and goes on at the same shape either way. -/
theorem of_cond {t : Nat} {J : Instr} {x : Slot} {s : StackShape}
    (hJ : J = .jumpIfFalse t ∨ J = .jumpIfTrue t) (hn : a n = x :: s) (hnext : a (n + 1) = s)
    (ht : a t = s) : PlanStep a n J := by
  have hafter : J.after (x :: s) = s := by rcases hJ with rfl | rfl <;> rfl
  refine ⟨⟨?_, fun k hk => ?_⟩, fun _ => ?_, fun t' ht' => ?_⟩
  · rw [hn]
    rcases hJ with rfl | rfl <;> simp [Instr.pops]
  · rcases hJ with rfl | rfl <;> cases hk
  · rw [hn, hafter, hnext]
    exact StackShape.Weaker.refl _
  · have : t' = t := by rcases hJ with rfl | rfl <;> simpa [Instr.target?] using ht'.symm
    rw [hn, hafter, this, ht]
    exact StackShape.Weaker.refl _

end PlanStep

namespace Planned

variable {is is' : Array Instr} {a b : Nat → StackShape} {X Y : Nat → Prop} {p q r lo hi : Nat}

theorem empty : Planned is a X p p lo hi :=
  ⟨fun _ hpn hnq => absurd hnq (Nat.not_lt_of_le hpn),
    fun _ hpn hnq => absurd hnq (Nat.not_lt_of_le hpn)⟩

/-- One instruction that runs as planned. -/
theorem single {n : Nat} {i : Instr} (hget : is[n]? = some i) (hplan : PlanStep a n i)
    (htgt : ∀ t, i.target? = some t → lo ≤ t ∧ t ≤ hi) (hX : ¬X n) :
    Planned is a X n (n + 1) lo hi where
  step m hnm hmn _ := by
    obtain rfl : m = n := Nat.le_antisymm (Nat.le_of_lt_succ hmn) hnm
    exact ⟨i, hget, hplan, htgt⟩
  exit m hnm hmn hXm := by
    obtain rfl : m = n := Nat.le_antisymm (Nat.le_of_lt_succ hmn) hnm
    exact absurd hXm hX

/-- Two planned stretches, one after the other, make one. -/
theorem join (h1 : Planned is a X p q lo hi) (h2 : Planned is a X q r lo hi) :
    Planned is a X p r lo hi where
  step n hpn hnr hX := by
    by_cases hnq : n < q
    · exact h1.step n hpn hnq hX
    · exact h2.step n (Nat.le_of_not_lt hnq) hnr hX
  exit n hpn hnr hX := by
    by_cases hnq : n < q
    · exact h1.exit n hpn hnq hX
    · exact h2.exit n (Nat.le_of_not_lt hnq) hnr hX

theorem widen (h : Planned is a X p q lo hi) {lo' hi' : Nat} (hlo : lo' ≤ lo) (hhi : hi ≤ hi') :
    Planned is a X p q lo' hi' where
  step n hpn hnq hX := by
    obtain ⟨i, hget, hplan, htgt⟩ := h.step n hpn hnq hX
    exact ⟨i, hget, hplan, fun t ht =>
      ⟨Nat.le_trans hlo (htgt t ht).1, Nat.le_trans (htgt t ht).2 hhi⟩⟩
  exit := h.exit

/-- A stretch runs as any plan that agrees with its own where it runs and where it jumps. -/
theorem congr_plan (h : Planned is a X p q lo hi) (hlo : lo ≤ p) (hhi : q ≤ hi)
    (hab : ∀ n, lo ≤ n → n ≤ hi → b n = a n) : Planned is b X p q lo hi where
  step n hpn hnq hX := by
    obtain ⟨i, hget, hplan, htgt⟩ := h.step n hpn hnq hX
    refine ⟨i, hget, hplan.congr ?_ (fun _ => ?_) fun t ht => hab t (htgt t ht).1 (htgt t ht).2,
      htgt⟩
    · exact hab n (Nat.le_trans hlo hpn) (Nat.le_trans (Nat.le_of_lt hnq) hhi)
    · exact hab (n + 1) (Nat.le_trans hlo (Nat.le_succ_of_le hpn)) (Nat.le_trans hnq hhi)
  exit n hpn hnq hX := by
    rw [hab n (Nat.le_trans hlo hpn) (Nat.le_trans (Nat.le_of_lt hnq) hhi)]
    exact h.exit n hpn hnq hX

/-- A planned stretch stays planned as long as its instructions stay. -/
theorem mono (h : Planned is a X p q lo hi) (hsame : ∀ n, p ≤ n → n < q → is'[n]? = is[n]?) :
    Planned is' a X p q lo hi where
  step n hpn hnq hX := by
    rw [hsame n hpn hnq]
    exact h.step n hpn hnq hX
  exit n hpn hnq hX := by
    rw [hsame n hpn hnq]
    exact h.exit n hpn hnq hX

theorem congr_exits (h : Planned is a X p q lo hi) (hXY : ∀ n, p ≤ n → n < q → (X n ↔ Y n)) :
    Planned is a Y p q lo hi where
  step n hpn hnq hY := h.step n hpn hnq fun hX => hY ((hXY n hpn hnq).mp hX)
  exit n hpn hnq hY := h.exit n hpn hnq ((hXY n hpn hnq).mpr hY)

/-- Aiming the loop exits of a stretch at places where the plan has an empty stack plans them
too. -/
theorem aimExits (h : Planned is a X p q lo hi)
    (hsame : ∀ n, p ≤ n → n < q → ¬X n → is'[n]? = is[n]?)
    (haim : ∀ n, p ≤ n → n < q → X n →
      ∃ t, is'[n]? = some (.jump t) ∧ a t = [] ∧ lo ≤ t ∧ t ≤ hi)
    (hY : ∀ n, p ≤ n → n < q → ¬Y n) : Planned is' a Y p q lo hi where
  step n hpn hnq _ := by
    by_cases hX : X n
    · obtain ⟨t, hget, ht, htlo, hthi⟩ := haim n hpn hnq hX
      refine ⟨.jump t, hget, PlanStep.of_jump (h.exit n hpn hnq hX).2 ht, fun t' ht' => ?_⟩
      cases ht'
      exact ⟨htlo, hthi⟩
    · rw [hsame n hpn hnq hX]
      exact h.step n hpn hnq hX
  exit n hpn hnq hYn := absurd hYn (hY n hpn hnq)

/-- A plan that follows plan `a` below `q` and plan `b` from `q` on. -/
def glue (a b : Nat → StackShape) (q : Nat) : Nat → StackShape := fun n => if n < q then a n else b n

theorem glue_of_le (hq : a q = b q) {n : Nat} (hn : n ≤ q) : glue a b q n = a n := by
  unfold glue
  split
  · rfl
  · rw [Nat.le_antisymm hn (Nat.le_of_not_lt ‹_›), hq]

theorem glue_of_ge {n : Nat} (hn : q ≤ n) : glue a b q n = b n := by
  unfold glue
  rw [if_neg (Nat.not_lt_of_le hn)]

/-- Two planned stretches, one after the other, make one under the glued plan. -/
theorem append (h1 : Planned is a X p q p q) (h2 : Planned is b X q r q r) (hq : a q = b q)
    (hpq : p ≤ q) (hqr : q ≤ r) : Planned is (glue a b q) X p r p r :=
  ((h1.congr_plan (Nat.le_refl _) (Nat.le_refl _) fun _ _ hn => glue_of_le hq hn).widen
      (Nat.le_refl _) hqr).join
    ((h2.congr_plan (Nat.le_refl _) (Nat.le_refl _) fun _ hn _ => glue_of_ge hn).widen
      hpq (Nat.le_refl _))

/-- A planned stretch seen in later code that keeps its instructions, under a plan that agrees
with its own, with the same exits and a wider range of jumps. -/
theorem transport (h : Planned is a X p q p q) (hsame : ∀ n, p ≤ n → n < q → is'[n]? = is[n]?)
    (hXY : ∀ n, p ≤ n → n < q → (X n ↔ Y n)) (hab : ∀ n, p ≤ n → n ≤ q → b n = a n)
    (hlo : lo ≤ p) (hhi : q ≤ hi) : Planned is' b Y p q lo hi :=
  (((h.mono hsame).congr_exits hXY).congr_plan (Nat.le_refl _) (Nat.le_refl _) hab).widen hlo hhi

end Planned

/-! ## Stretches a compile step appends -/

/-- The step from `E` to `E'` appended a stretch that runs from shape `entry s` to shape
`exit s`, whatever the shape `s`, and jumps only within itself. -/
def Emitted (E E' : Emitter) (entry exit : StackShape → StackShape) : Prop :=
  E.Extends E' ∧ ∀ s, ∃ a, a E.instrs.size = entry s ∧ a E'.instrs.size = exit s ∧
    Planned E'.instrs a (E.NewExit E') E.instrs.size E'.instrs.size E.instrs.size E'.instrs.size

/-- Run from `E`, `m` appends a stretch from shape `entry s` to shape `exit s`. -/
def EmitsAt (E : Emitter) (m : Emit Unit) (entry exit : StackShape → StackShape) : Prop :=
  ∀ E', m.run E = .ok ((), E') → Emitted E E' entry exit

/-- Run from any sound emitter, `m` appends a stretch from shape `entry s` to `exit s`. -/
def Emits (m : Emit Unit) (entry exit : StackShape → StackShape) : Prop :=
  ∀ E, E.Ok → EmitsAt E m entry exit

namespace Emitted

variable {E E1 E2 : Emitter} {e x mid : StackShape → StackShape}

theorem refl (hE : E.Ok) : Emitted E E e e :=
  ⟨Emitter.Extends.refl hE, fun s => ⟨fun _ => e s, rfl, rfl, Planned.empty⟩⟩

/-- Two stretches, one after the other: the second starts where the first ends. -/
theorem trans (h1 : Emitted E E1 e mid) (h2 : Emitted E1 E2 mid x) : Emitted E E2 e x := by
  obtain ⟨hx1, hp1⟩ := h1
  obtain ⟨hx2, hp2⟩ := h2
  refine ⟨hx1.trans hx2, fun s => ?_⟩
  obtain ⟨a, ha0, ha1, hpa⟩ := hp1 s
  obtain ⟨b, hb0, hb1, hpb⟩ := hp2 s
  have hq : a E1.instrs.size = b E1.instrs.size := ha1.trans hb0.symm
  refine ⟨Planned.glue a b E1.instrs.size, ?_, ?_, ?_⟩
  · rw [Planned.glue_of_le hq hx1.size, ha0]
  · rw [Planned.glue_of_ge hx2.size, hb1]
  · -- the first stretch stays as it was under the second, and both keep their exits
    have hpa' := (hpa.mono fun n _ hn => hx2.kept n hn).congr_exits
      fun n _ hn => (Emitter.newExit_left_iff hx2.grow hn).symm
    have hpb' := hpb.congr_exits fun n hn _ => (Emitter.newExit_right_iff hx1.grow hn).symm
    exact hpa'.append hpb' hq hx1.size hx2.size

/-- The same stretch, over a shape `f s` below in place of `s`. -/
theorem comp (h : Emitted E E1 e x) (f : StackShape → StackShape) :
    Emitted E E1 (fun s => e (f s)) (fun s => x (f s)) :=
  ⟨h.1, fun s => h.2 (f s)⟩

end Emitted

namespace EmitsAt

variable {E : Emitter} {m m1 m2 : Emit Unit} {e x y mid : StackShape → StackShape}

/-- The step lemma for sequencing. -/
theorem seq (h1 : EmitsAt E m1 e mid) (h2 : ∀ E1, E.Extends E1 → EmitsAt E1 m2 mid x) :
    EmitsAt E (m1 >>= fun _ => m2) e x := by
  intro E' h
  obtain ⟨⟨⟩, E1, hrun1, hrun2⟩ := Emit.run_bind_ok h
  have he1 := h1 E1 hrun1
  exact he1.trans (h2 E1 he1.1 E' hrun2)

theorem comp (h : EmitsAt E m e x) (f : StackShape → StackShape) :
    EmitsAt E m (fun s => e (f s)) (fun s => x (f s)) :=
  fun E' hrun => (h E' hrun).comp f

/-- A nonempty stretch may end at a shape that claims less. -/
theorem weaken (h : EmitsAt E m e x) (hw : ∀ s, StackShape.Weaker (x s) (y s))
    (hne : ∀ E', m.run E = .ok ((), E') → E.instrs.size < E'.instrs.size) :
    EmitsAt E m e y := by
  intro E' hrun
  obtain ⟨hx, hp⟩ := h E' hrun
  have hlt := hne E' hrun
  refine ⟨hx, fun s => ?_⟩
  obtain ⟨a, ha0, ha1, hpa⟩ := hp s
  refine ⟨fun n => if n = E'.instrs.size then y s else a n, ?_, by simp, ?_⟩
  · show (if E.instrs.size = E'.instrs.size then y s else a E.instrs.size) = e s
    rw [if_neg (Nat.ne_of_lt hlt), ha0]
  · -- only the end moves, and what reached it reaches the weaker shape too
    have hend : ∀ {n} (t : StackShape), StackShape.Weaker t (a n) →
        StackShape.Weaker t (if n = E'.instrs.size then y s else a n) := by
      intro n t ht
      split
      · next hn => exact ht.trans (hn ▸ ha1 ▸ hw s)
      · exact ht
    constructor
    · intro n hpn hnq hX
      obtain ⟨i, hi, hplan, htgt⟩ := hpa.step n hpn hnq hX
      refine ⟨i, hi, ⟨?_, fun hf => ?_, fun t ht => ?_⟩, htgt⟩
      · rw [if_neg (Nat.ne_of_lt hnq)]
        exact hplan.fits
      · rw [if_neg (Nat.ne_of_lt hnq)]
        exact hend _ (hplan.next hf)
      · rw [if_neg (Nat.ne_of_lt hnq)]
        exact hend _ (hplan.jump t ht)
    · intro n hpn hnq hX
      rw [if_neg (Nat.ne_of_lt hnq)]
      exact hpa.exit n hpn hnq hX

/-- A step that writes no code and keeps the loops, followed by a stretch. -/
theorem bind_silent {α : Type} {x : Emit α} {f : α → Emit Unit}
    (hx : ∀ a E1, x.run E = .ok (a, E1) → E.Extends E1 ∧ E1.instrs = E.instrs ∧ E1.loops = E.loops)
    (hf : ∀ a E1, x.run E = .ok (a, E1) → EmitsAt E1 (f a) e y) : EmitsAt E (x >>= f) e y := by
  intro E' hrun
  obtain ⟨a, E1, hrun1, hrun2⟩ := Emit.run_bind_ok hrun
  obtain ⟨hx1, hinstrs, hloops⟩ := hx a E1 hrun1
  obtain ⟨hx2, hp⟩ := hf a E1 hrun1 E' hrun2
  have hexits : E1.exits = E.exits := by unfold Emitter.exits; rw [hloops]
  refine ⟨hx1.trans hx2, fun s => ?_⟩
  obtain ⟨b, hb0, hb1, hpb⟩ := hp s
  rw [hinstrs] at hb0 hpb
  refine ⟨b, hb0, hb1, hpb.congr_exits fun n _ _ => ?_⟩
  unfold Emitter.NewExit
  rw [hexits]

theorem get_bind {f : Emitter → Emit Unit} (h : EmitsAt E (f E) e y) :
    EmitsAt E (get >>= f) e y := h

theorem pure_unit (hE : E.Ok) : EmitsAt E (pure ()) e e := by
  intro E' hrun
  cases hrun
  exact Emitted.refl hE

end EmitsAt

/-! ## Writing one instruction -/

/-- The table indices of an instruction are in range. -/
def Instr.RefsIn (i : Instr) (E : Emitter) : Prop :=
  (∀ k, i.constRef? = some k → k < E.consts.size) ∧ (∀ k, i.nameRef? = some k → k < E.names.size) ∧
    (∀ k, i.funcRef? = some k → k < E.funcs.size)

/-- Nothing is asked of an index or a target that an instruction does not have. -/
theorem Instr.forall_of_none {o : Option Nat} {P : Nat → Prop} (h : o = none) :
    ∀ k, o = some k → P k := by
  intro k hk
  rw [h] at hk
  cases hk

/-- An instruction that names no constant, name or function has its indices in range. -/
theorem Instr.RefsIn.of_none {i : Instr} {E : Emitter} (hc : i.constRef? = none)
    (hn : i.nameRef? = none) (hf : i.funcRef? = none) : i.RefsIn E :=
  ⟨Instr.forall_of_none hc, Instr.forall_of_none hn, Instr.forall_of_none hf⟩

namespace Emitter

variable {E : Emitter}

/-- Appending an instruction whose indices are in range and that jumps at most to the new end. -/
theorem Ok.push (hE : E.Ok) {i : Instr} (hrefs : i.RefsIn E)
    (htgt : ∀ t, i.target? = some t → t ≤ E.instrs.size + 1) :
    ({ E with instrs := E.instrs.push i } : Emitter).Ok where
  consts j hj k hk := by
    rcases Array.mem_push.mp hj with hj | rfl
    · exact hE.consts j hj k hk
    · exact hrefs.1 k hk
  names j hj k hk := by
    rcases Array.mem_push.mp hj with hj | rfl
    · exact hE.names j hj k hk
    · exact hrefs.2.1 k hk
  funcs j hj k hk := by
    rcases Array.mem_push.mp hj with hj | rfl
    · exact hE.funcs j hj k hk
    · exact hrefs.2.2 k hk
  targets j hj t ht := by
    rw [Array.size_push]
    rcases Array.mem_push.mp hj with hj | rfl
    · exact Nat.le_succ_of_le (hE.targets j hj t ht)
    · exact htgt t ht
  exits j hj := by
    rw [Array.size_push]
    exact Nat.lt_succ_of_lt (hE.exits j hj)
  code := hE.code

/-- Appending an instruction extends the emitter. -/
theorem Extends.push (hE : E.Ok) {i : Instr} (hrefs : i.RefsIn E)
    (htgt : ∀ t, i.target? = some t → t ≤ E.instrs.size + 1) :
    E.Extends { E with instrs := E.instrs.push i } where
  ok := hE.push hrefs htgt
  grow := exitsGrow_instrs (by simp)
  kept n hn := by simp only [Array.getElem?_push, if_neg (Nat.ne_of_lt hn)]
  consts := Nat.le_refl _
  names := Nat.le_refl _
  funcs := Nat.le_refl _
  depth := rfl
  outer := rfl
  isScript := rfl

end Emitter

namespace EmitsAt

variable {E : Emitter} {e x : StackShape → StackShape}

/-- Writing an instruction that does not jump. -/
theorem emit (hE : E.Ok) {i : Instr} (hrefs : i.RefsIn E) (htarget : i.target? = none)
    (hfits : ∀ s, i.Fits (e s)) (hx : ∀ s, i.after (e s) = x s) :
    EmitsAt E (discard (Emit.emit i)) e x := by
  intro E' hrun
  rw [Emit.run_discard_emit] at hrun
  cases hrun
  refine ⟨Emitter.Extends.push hE hrefs (by simp [htarget]), fun s => ?_⟩
  refine ⟨fun n => if n = E.instrs.size then e s else x s, by simp, by simp, ?_⟩
  have hplan : PlanStep (fun n => if n = E.instrs.size then e s else x s) E.instrs.size i := by
    refine ⟨by simpa using hfits s, fun _ => ?_, fun t ht => ?_⟩
    · simp only [if_true, Nat.succ_ne_self, if_false, hx]
      exact StackShape.Weaker.refl _
    · rw [htarget] at ht
      cases ht
  rw [Array.size_push]
  exact Planned.single (by simp) hplan (fun t ht => by rw [htarget] at ht; cases ht)
    fun hX => hX.2 hX.1

end EmitsAt

/-! ## Aiming jumps and opening loops -/

namespace Emitter

variable {E E' E1 E2 : Emitter}

theorem Ok.with_loops (h : E.Ok) {ls : List LoopJumps}
    (hls : ∀ j ∈ ({ E with loops := ls } : Emitter).exits, j < E.instrs.size) :
    ({ E with loops := ls } : Emitter).Ok :=
  ⟨h.consts, h.names, h.funcs, h.targets, hls, h.code⟩

/-- Aiming a jump written after `E` at the next instruction. -/
theorem Extends.aimHere (h : E.Extends E') {j : Nat} (hj : E.instrs.size ≤ j) :
    E.Extends { E' with instrs := E'.instrs.modify j (Instr.retarget E'.instrs.size) } :=
  h.reaim (Reaimed.modify (Nat.le_refl _)) fun n hn => by
    rw [Array.getElem?_modify, if_neg (Nat.ne_of_gt (Nat.lt_of_lt_of_le hn hj))]

/-- An instruction the step appended itself is no new loop exit. -/
theorem not_newExit_push (h : E.ExitsGrow E1) {i : Instr}
    (h' : ({ E1 with instrs := E1.instrs.push i } : Emitter).ExitsGrow E2) :
    ¬E.NewExit E2 E1.instrs.size := by
  rintro ⟨hj2, hjE⟩
  rcases h'.fresh _ hj2 with hj1 | ⟨hlo, -⟩
  · rcases h.fresh _ hj1 with hj | ⟨-, hhi⟩
    · exact hjE hj
    · exact Nat.lt_irrefl _ hhi
  · exact absurd hlo (by simp)

end Emitter

end EcmaLite
