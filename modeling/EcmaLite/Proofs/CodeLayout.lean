import EcmaLite.Proofs.CodeRuns
import EcmaLite.Proofs.EmitRun

/-!
# Where compiled code lands

A compile step run from emitter `E` to `E'` writes the instructions from `E.instrs.size` to
`E'.instrs.size`. The jumps among them are aimed later: by the construct around them, or, for
`break` and `continue`, when their loop closes. The final code `C` holds what the step wrote
(`Code.Holds C E E' brk cont`) when its instructions there are the step's, with each loop exit the
step left open aimed at `brk` (a `break`) or at `cont` (a `continue`), and its tables start with
those of `E'`.

`LaysAt E m X` says that `m`, run from `E`, grows the emitter (`Emitter.Grows`), and that any
final code holding what it wrote satisfies `X` from the first position of the stretch to the one
after it. Steps compose by `LaysAt.bind`. The constructs that aim jumps of their own (`&&`, `||`,
`?:`, `if`, the loops) change code written before their last step, so each has a lemma of its own,
proved by following the emitter step by step.
-/

namespace EcmaLite

/-! ## Tables that only grow -/

/-- The entries of `a` are the first entries of `b`. -/
def Starts {α : Type} (a b : Array α) : Prop := ∀ k, k < a.size → b[k]? = a[k]?

namespace Starts

variable {α : Type} {a b c : Array α}

theorem refl (a : Array α) : Starts a a := fun _ _ => rfl

theorem size_le (h : Starts a b) : a.size ≤ b.size := by
  rcases Nat.eq_zero_or_pos a.size with h0 | hpos
  · omega
  · have hk := h (a.size - 1) (by omega)
    have ha : a[a.size - 1]? = some a[a.size - 1] := Array.getElem?_eq_getElem (by omega)
    rw [ha] at hk
    obtain ⟨hlt, -⟩ := Array.getElem?_eq_some_iff.mp hk
    omega

theorem trans (h : Starts a b) (h' : Starts b c) : Starts a c :=
  fun k hk => (h' k (Nat.lt_of_lt_of_le hk h.size_le)).trans (h k hk)

theorem push (a : Array α) (x : α) : Starts a (a.push x) := fun _ hk => by
  rw [Array.getElem?_push, if_neg (Nat.ne_of_lt hk)]

theorem get (h : Starts a b) {k : Nat} {x : α} (hk : a[k]? = some x) : b[k]? = some x := by
  obtain ⟨hlt, -⟩ := Array.getElem?_eq_some_iff.mp hk
  exact (h k hlt).trans hk

end Starts

/-! ## Emitters that grow -/

namespace Emitter

variable {E E' E'' : Emitter} {lo : Nat}

/-- The `break`s of the innermost open loop still to be aimed. -/
def breaks (E : Emitter) : List Nat :=
  match E.loops with
  | l :: _ => l.breaks
  | [] => []

/-- The `continue`s of the innermost open loop still to be aimed. -/
def continues (E : Emitter) : List Nat :=
  match E.loops with
  | l :: _ => l.continues
  | [] => []

theorem mem_exits {n : Nat} : n ∈ E.exits ↔ n ∈ E.breaks ∨ n ∈ E.continues := by
  rcases E with ⟨_, _, _, _, _ | ⟨l, rest⟩, _⟩
  · simp [exits, breaks, continues]
  · simp [exits, breaks, continues]

/-- Every loop exit still to be aimed is in the code written. -/
def Fresh (E : Emitter) : Prop := ∀ j ∈ E.exits, j < E.instrs.size

/-- `E'` keeps what `E` holds from position `lo` on: the instructions, each loop exit as the
`break` or `continue` it was, and every entry of the tables. -/
structure Keeps (lo : Nat) (E E' : Emitter) : Prop where
  size : E.instrs.size ≤ E'.instrs.size
  instrs : ∀ n, lo ≤ n → n < E.instrs.size → E'.instrs[n]? = E.instrs[n]?
  breaks : ∀ n, lo ≤ n → n < E.instrs.size → (n ∈ E'.breaks ↔ n ∈ E.breaks)
  continues : ∀ n, lo ≤ n → n < E.instrs.size → (n ∈ E'.continues ↔ n ∈ E.continues)
  consts : Starts E.consts E'.consts
  names : Starts E.names E'.names
  funcs : Starts E.funcs E'.funcs

namespace Keeps

theorem refl (lo : Nat) (E : Emitter) : Keeps lo E E :=
  ⟨Nat.le_refl _, fun _ _ _ => rfl, fun _ _ _ => Iff.rfl, fun _ _ _ => Iff.rfl, .refl _, .refl _,
    .refl _⟩

theorem trans (h : Keeps lo E E') (h' : Keeps lo E' E'') : Keeps lo E E'' where
  size := Nat.le_trans h.size h'.size
  instrs n hlo hn := (h'.instrs n hlo (Nat.lt_of_lt_of_le hn h.size)).trans (h.instrs n hlo hn)
  breaks n hlo hn := (h'.breaks n hlo (Nat.lt_of_lt_of_le hn h.size)).trans (h.breaks n hlo hn)
  continues n hlo hn :=
    (h'.continues n hlo (Nat.lt_of_lt_of_le hn h.size)).trans (h.continues n hlo hn)
  consts := h.consts.trans h'.consts
  names := h.names.trans h'.names
  funcs := h.funcs.trans h'.funcs

theorem mono {lo' : Nat} (h : Keeps lo E E') (hle : lo ≤ lo') : Keeps lo' E E' where
  size := h.size
  instrs n hlo := h.instrs n (Nat.le_trans hle hlo)
  breaks n hlo := h.breaks n (Nat.le_trans hle hlo)
  continues n hlo := h.continues n (Nat.le_trans hle hlo)
  consts := h.consts
  names := h.names
  funcs := h.funcs

/-- Aiming a jump outside what is kept. -/
theorem aim (h : Keeps lo E E') {j : Nat} (hj : j < lo ∨ E.instrs.size ≤ j) (f : Instr → Instr) :
    Keeps lo E { E' with instrs := E'.instrs.modify j f } where
  size := by
    show E.instrs.size ≤ (E'.instrs.modify j f).size
    rw [Array.size_modify]
    exact h.size
  instrs n hlo hn := by
    show (E'.instrs.modify j f)[n]? = _
    rw [Array.getElem?_modify, if_neg (by omega)]
    exact h.instrs n hlo hn
  breaks := h.breaks
  continues := h.continues
  consts := h.consts
  names := h.names
  funcs := h.funcs

end Keeps

/-- What a compile step from `E` to `E'` does: it keeps all `E` holds and the loops around the
innermost one, and every loop exit it leaves open is a `jump` it wrote, still to be aimed. -/
structure Grows (E E' : Emitter) : Prop extends Keeps 0 E E' where
  depth : E'.loops.length = E.loops.length
  outer : E'.loops.tail = E.loops.tail
  fresh : ∀ j ∈ E'.exits, j ∉ E.exits →
    E.instrs.size ≤ j ∧ j < E'.instrs.size ∧ E'.instrs[j]? = some (.jump 0)
  isScript : E'.isScript = E.isScript

namespace Grows

theorem refl (E : Emitter) : E.Grows E :=
  { Keeps.refl 0 E with
    depth := rfl
    outer := rfl
    fresh := fun _ hj hjE => absurd hj hjE
    isScript := rfl }

theorem trans (h : E.Grows E') (h' : E'.Grows E'') : E.Grows E'' :=
  { h.toKeeps.trans h'.toKeeps with
    depth := h'.depth.trans h.depth
    outer := h'.outer.trans h.outer
    fresh := fun j hj hjE => by
      by_cases hj' : j ∈ E'.exits
      · obtain ⟨hlo, hhi, hget⟩ := h.fresh j hj' hjE
        exact ⟨hlo, Nat.lt_of_lt_of_le hhi h'.size, (h'.instrs j (Nat.zero_le _) hhi).trans hget⟩
      · obtain ⟨hlo, hhi, hget⟩ := h'.fresh j hj hj'
        exact ⟨Nat.le_trans h.size hlo, hhi, hget⟩
    isScript := h'.isScript.trans h.isScript }

theorem keeps (h : E.Grows E') (lo : Nat) : Keeps lo E E' := h.toKeeps.mono (Nat.zero_le lo)

/-- Writing one instruction. -/
theorem push (E : Emitter) (i : Instr) : E.Grows { E with instrs := E.instrs.push i } where
  size := by simp
  instrs n _ hn := Starts.push E.instrs i n hn
  breaks _ _ _ := Iff.rfl
  continues _ _ _ := Iff.rfl
  consts := .refl _
  names := .refl _
  funcs := .refl _
  depth := rfl
  outer := rfl
  fresh _ hj hjE := absurd hj hjE
  isScript := rfl

/-- Growing the tables. -/
theorem tables {cs : Array Const} {ns : Array String} {fs : Array Code} (hc : Starts E.consts cs)
    (hn : Starts E.names ns) (hf : Starts E.funcs fs) :
    E.Grows { E with consts := cs, names := ns, funcs := fs } where
  size := Nat.le_refl _
  instrs _ _ _ := rfl
  breaks _ _ _ := Iff.rfl
  continues _ _ _ := Iff.rfl
  consts := hc
  names := hn
  funcs := hf
  depth := rfl
  outer := rfl
  fresh _ hj hjE := absurd hj hjE
  isScript := rfl

/-- Aiming a jump the step wrote that is no loop exit. -/
theorem aim (h : E.Grows E') {j : Nat} (hj : E.instrs.size ≤ j) (hjx : j ∉ E'.exits)
    (f : Instr → Instr) : E.Grows { E' with instrs := E'.instrs.modify j f } :=
  { h.toKeeps.aim (.inr hj) f with
    depth := h.depth
    outer := h.outer
    fresh := fun n hn hnE => by
      obtain ⟨hlo, hhi, hget⟩ := h.fresh n hn hnE
      have hne : j ≠ n := fun hjn => hjx (hjn ▸ hn)
      refine ⟨hlo, by simpa using hhi, ?_⟩
      show (E'.instrs.modify j f)[n]? = _
      rw [Array.getElem?_modify, if_neg hne]
      exact hget
    isScript := h.isScript }

/-- A position written before the step that was no loop exit is none after it. -/
theorem not_mem_exits (h : E.Grows E') {n : Nat} (hn : n < E.instrs.size) (hx : n ∉ E.exits) :
    n ∉ E'.exits := fun hn' => absurd (h.fresh n hn' hx).1 (Nat.not_le_of_lt hn)

/-- A step that ends with the loops it found, after one that grows the emitter. -/
theorem close (h : E.Grows E') (hk : E'.Keeps 0 E'') (hl : E''.loops = E'.loops)
    (hs : E''.isScript = E'.isScript) : E.Grows E'' :=
  have hx : E''.exits = E'.exits := by unfold exits; rw [hl]
  { h.toKeeps.trans hk with
    depth := by rw [hl]; exact h.depth
    outer := by rw [hl]; exact h.outer
    fresh := fun j hj hjE => by
      obtain ⟨hlo, hhi, hget⟩ := h.fresh j (hx ▸ hj) hjE
      exact ⟨hlo, Nat.lt_of_lt_of_le hhi hk.size, (hk.instrs j (Nat.zero_le _) hhi).trans hget⟩
    isScript := hs.trans h.isScript }

end Grows

/-- Aiming the jump out of a loop's test, if there is one, where it is not kept. -/
theorem Keeps.aimExit (h : Keeps lo E E') {exit : Option Nat}
    (hj : ∀ j, exit = some j → j < lo ∨ E.instrs.size ≤ j) (f : Instr → Instr) :
    Keeps lo E { E' with instrs := exit.elim E'.instrs fun j => E'.instrs.modify j f } := by
  cases exit with
  | none => exact h
  | some j => exact h.aim (hj j rfl) f

/-- Aiming the jump out of a loop's test, if there is one, after a step that wrote it. -/
theorem Grows.aimExit (h : E.Grows E') {exit : Option Nat}
    (hj : ∀ j, exit = some j → E.instrs.size ≤ j ∧ j ∉ E'.exits) (f : Instr → Instr) :
    E.Grows { E' with instrs := exit.elim E'.instrs fun j => E'.instrs.modify j f } := by
  cases exit with
  | none => exact h
  | some j => exact h.aim (hj j rfl).1 (hj j rfl).2 f

/-- A step run in a loop just opened keeps the loops around it, under the loop's own. -/
theorem Grows.loops_of_enter (h : ({ E with loops := ⟨[], []⟩ :: E.loops } : Emitter).Grows E') :
    ∃ l, E'.loops = l :: E.loops := by
  have ho : E'.loops.tail = E.loops := h.outer
  have hd : E'.loops.length = E.loops.length + 1 := h.depth
  cases h' : E'.loops with
  | nil =>
    rw [h'] at hd
    simp at hd
  | cons l rest =>
    rw [h', List.tail_cons] at ho
    exact ⟨l, by rw [ho]⟩

theorem Fresh.grows (hF : E.Fresh) (h : E.Grows E') : E'.Fresh := by
  intro j hj
  by_cases hjE : j ∈ E.exits
  · exact Nat.lt_of_lt_of_le (hF j hjE) h.size
  · exact (h.fresh j hj hjE).2.1

theorem Fresh.push (hF : E.Fresh) (i : Instr) : ({ E with instrs := E.instrs.push i } : Emitter).Fresh :=
  hF.grows (Grows.push E i)

end Emitter

/-! ## Final code that holds a stretch -/

namespace Code

variable {C : Code} {E E1 E2 : Emitter} {brk cont : Nat}

/-- Code `C` holds what the step from `E` to `E'` wrote: the instructions from `E.instrs.size` on,
each loop exit the step left open aimed at `brk` when it is a `break` and at `cont` when it is a
`continue`, and the tables of `E'` at the start of its own. -/
structure Holds (C : Code) (E E' : Emitter) (brk cont : Nat) : Prop where
  instrs : ∀ n, E.instrs.size ≤ n → n < E'.instrs.size → n ∉ E'.exits →
    C.instrs[n]? = E'.instrs[n]?
  exits : ∀ n ∈ E'.exits, E.instrs.size ≤ n →
    C.instrs[n]? = some (.jump (if n ∈ E'.breaks then brk else cont))
  consts : Starts E'.consts C.consts
  names : Starts E'.names C.names
  funcs : Starts E'.funcs C.funcs

namespace Holds

/-- A first part of the stretch, kept by the rest. -/
theorem left (h : C.Holds E E2 brk cont) (hk : E1.Keeps E.instrs.size E2) (hF : E1.Fresh) :
    C.Holds E E1 brk cont where
  instrs n hlo hhi hx := by
    have hx2 : n ∉ E2.exits := by
      rw [Emitter.mem_exits, hk.breaks n hlo hhi, hk.continues n hlo hhi, ← Emitter.mem_exits]
      exact hx
    rw [h.instrs n hlo (Nat.lt_of_lt_of_le hhi hk.size) hx2, hk.instrs n hlo hhi]
  exits n hn hlo := by
    have hhi := hF n hn
    have hn2 : n ∈ E2.exits := by
      rw [Emitter.mem_exits, hk.breaks n hlo hhi, hk.continues n hlo hhi, ← Emitter.mem_exits]
      exact hn
    rw [h.exits n hn2 hlo]
    simp only [hk.breaks n hlo hhi]
  consts := hk.consts.trans h.consts
  names := hk.names.trans h.names
  funcs := hk.funcs.trans h.funcs

/-- The last part of the stretch. -/
theorem right (h : C.Holds E E2 brk cont) (hle : E.instrs.size ≤ E1.instrs.size) :
    C.Holds E1 E2 brk cont :=
  ⟨fun n hlo => h.instrs n (Nat.le_trans hle hlo), fun n hn hlo => h.exits n hn (Nat.le_trans hle hlo),
    h.consts, h.names, h.funcs⟩

/-- The body of a loop in the final code, once `leaveLoop t` has closed the loop from `E6`: each
`break` of the body aimed past the loop and each `continue` at `t`. The body ran from `E3`, just
after the loop opened, to `E4`, and `E6` keeps it; the exits of the loops around lie before it. -/
theorem loop_body {E3 E4 E6 : Emitter} {l : LoopJumps} {rest : List LoopJumps} {t : Nat}
    (hC : C.Holds E { E6 with
      loops := rest
      instrs := aimAll (aimAll E6.instrs l.continues t) l.breaks E6.instrs.size } brk cont)
    (hle : E.instrs.size ≤ E3.instrs.size) (h3 : E3.exits = []) (g : E3.Grows E4)
    (hl : E4.loops = l :: rest) (hk : E4.Keeps E3.instrs.size E6)
    (hrest : ∀ n ∈ ({ E6 with loops := rest } : Emitter).exits, n < E3.instrs.size) :
    C.Holds E3 E4 E6.instrs.size t := by
  have hx4 : ∀ n, n ∈ E4.exits ↔ n ∈ l.breaks ∨ n ∈ l.continues := fun n => by
    simp [Emitter.exits, hl]
  have hC' : ∀ n, E3.instrs.size ≤ n → n < E4.instrs.size →
      C.instrs[n]? = (aimAll (aimAll E6.instrs l.continues t) l.breaks E6.instrs.size)[n]? :=
    fun n hlo hhi => hC.instrs n (Nat.le_trans hle hlo)
      (by simpa using Nat.lt_of_lt_of_le hhi hk.size) fun hx => absurd (hrest n hx) (by omega)
  refine ⟨fun n hlo hhi hx => ?_, fun n hn hlo => ?_, hk.consts.trans hC.consts,
    hk.names.trans hC.names, hk.funcs.trans hC.funcs⟩
  · rw [hC' n hlo hhi, getElem?_aimAll, getElem?_aimAll, hk.instrs n hlo hhi]
    rw [hx4, not_or] at hx
    simp only [hx.1, hx.2, if_false]
  · -- an exit of the body is a `jump` the body wrote, aimed by its kind
    obtain ⟨-, hhi, hget⟩ := g.fresh n hn (by rw [h3]; exact List.not_mem_nil)
    have hget6 : E6.instrs[n]? = some (.jump 0) := (hk.instrs n hlo hhi).trans hget
    have hb : n ∈ E4.breaks ↔ n ∈ l.breaks := by simp [Emitter.breaks, hl]
    rw [hC' n hlo hhi, getElem?_aimAll, getElem?_aimAll, hget6]
    by_cases hnb : n ∈ l.breaks
    · by_cases hnc : n ∈ l.continues <;> simp [hnb, hnc, hb]
    · have hnc : n ∈ l.continues := ((hx4 n).mp hn).resolve_left hnb
      simp [hnb, hnc, hb]

end Holds

end Code

/-! ## Laying out a step -/

/-- Run from `E` with every open loop exit in its code, the step `m` grows the emitter; and any
final code that holds what it wrote, with loop exits aimed at `brk` and `cont`, satisfies `X` with
its result from the first position of the stretch to the one after it. -/
def LaysAt {α : Type} (E : Emitter) (m : Emit α)
    (X : α → Code → Nat → Nat → Nat → Nat → Prop) : Prop :=
  E.Fresh → ∀ a E', m.run E = .ok (a, E') → E.Grows E' ∧
    ∀ C brk cont, C.Holds E E' brk cont → X a C brk cont E.instrs.size E'.instrs.size

namespace LaysAt

variable {α β : Type} {E : Emitter} {m : Emit α} {X Y : α → Code → Nat → Nat → Nat → Nat → Prop}

theorem mono (h : LaysAt E m X)
    (hXY : ∀ a C brk cont p q, X a C brk cont p q → Y a C brk cont p q) : LaysAt E m Y :=
  fun hF a E' hrun => (h hF a E' hrun).imp_right fun hX C brk cont hC =>
    hXY _ _ _ _ _ _ (hX C brk cont hC)

/-- The step lemma for sequencing: the first stretch, then the second from where it ends. -/
theorem bind {f : α → Emit β} {Z : α → β → Code → Nat → Nat → Nat → Nat → Prop}
    (h1 : LaysAt E m X) (h2 : ∀ a E1, E.Grows E1 → LaysAt E1 (f a) (Z a)) :
    LaysAt E (m >>= f) fun b C brk cont p r =>
      ∃ a q, X a C brk cont p q ∧ Z a b C brk cont q r := by
  intro hF b E' hrun
  obtain ⟨a, E1, hrun1, hrun2⟩ := Emit.run_bind_ok hrun
  obtain ⟨g1, hX⟩ := h1 hF a E1 hrun1
  have hF1 := hF.grows g1
  obtain ⟨g2, hZ⟩ := h2 a E1 g1 hF1 b E' hrun2
  exact ⟨g1.trans g2, fun C brk cont hC => ⟨a, E1.instrs.size,
    hX C brk cont (hC.left (g2.keeps _) hF1), hZ C brk cont (hC.right g1.size)⟩⟩

theorem pure (a : α) : LaysAt E (Pure.pure a) fun b _ _ _ p q => b = a ∧ q = p := by
  intro _ b E' hrun
  have hp : (Pure.pure a : Emit α).run E = .ok (a, E) := rfl
  rw [hp] at hrun
  cases hrun
  exact ⟨Emitter.Grows.refl E, fun _ _ _ _ => ⟨rfl, rfl⟩⟩

theorem throw (e : Fault) : LaysAt E (throw e : Emit α) X :=
  fun _ _ _ hrun => by cases hrun

theorem get_bind {f : Emitter → Emit α} (h : LaysAt E (f E) X) : LaysAt E (get >>= f) X := h

/-- Writing one instruction. -/
theorem emit (i : Instr) :
    LaysAt E (discard (Emit.emit i)) fun _ C _ _ p q => C.instrs[p]? = some i ∧ q = p + 1 := by
  intro hF _ E' hrun
  rw [Emit.run_discard_emit] at hrun
  cases hrun
  refine ⟨Emitter.Grows.push E i, fun C brk cont hC => ⟨?_, by simp⟩⟩
  rw [hC.instrs _ (Nat.le_refl _) (by simp) fun hx => Nat.lt_irrefl _ (hF _ hx)]
  simp

/-- Looking a name up: the final code has the name at its index. -/
theorem name (x : String) :
    LaysAt E (Emit.name x) fun k C _ _ p q => C.nameAt k = x ∧ q = p := by
  intro _ k E' hrun
  rw [Emit.run_name] at hrun
  cases hidx : E.names.idxOf? x with
  | none =>
    rw [hidx, Option.elim_none] at hrun
    cases hrun
    refine ⟨Emitter.Grows.tables (.refl _) (.push _ x) (.refl _), fun C _ _ hC => ⟨?_, rfl⟩⟩
    rw [Code.nameAt, hC.names.get Array.getElem?_push_size, Option.getD_some]
  | some i =>
    rw [hidx, Option.elim_some] at hrun
    cases hrun
    rw [Array.idxOf?_eq_map_finIdxOf?_val] at hidx
    obtain ⟨fi, hfi, rfl⟩ := Option.map_eq_some_iff.mp hidx
    have hget : E.names[fi.val]? = some x := by
      rw [Array.getElem?_eq_getElem fi.isLt]
      exact congrArg some (Array.finIdxOf?_eq_some_iff.mp hfi).1
    exact ⟨Emitter.Grows.refl E, fun C _ _ hC => ⟨by rw [Code.nameAt, hC.names.get hget,
      Option.getD_some], rfl⟩⟩

/-- Adding a constant: the final code has it at its index. -/
theorem const (c : Const) :
    LaysAt E (Emit.const c) fun k C _ _ p q => C.consts[k]? = some c ∧ q = p := by
  intro _ k E' hrun
  rw [Emit.run_const] at hrun
  cases hrun
  exact ⟨Emitter.Grows.tables (.push _ c) (.refl _) (.refl _), fun C _ _ hC =>
    ⟨hC.consts.get Array.getElem?_push_size, rfl⟩⟩

/-- A `break` (`b` true) or a `continue`: a jump the final code aims at `brk` or `cont`. -/
theorem loopExit (b : Bool) :
    LaysAt E (Emit.loopExit b) fun _ C brk cont p q =>
      C.instrs[p]? = some (.jump (if b then brk else cont)) ∧ q = p + 1 := by
  intro hF _ E' hrun
  cases hl : E.loops with
  | nil => exact absurd hrun (Emit.run_loopExit_ne_ok hl E')
  | cons l rest =>
    rw [Emit.run_loopExit hl] at hrun
    cases hrun
    -- the old exits lie below the new one, which is of the kind `b` says
    have hold : ∀ n, n ∈ l.breaks ∨ n ∈ l.continues → n < E.instrs.size := fun n hn =>
      hF n (by simp only [Emitter.exits, hl, List.mem_append]; exact hn)
    have hb : E.instrs.size ∉ l.breaks := fun h => Nat.lt_irrefl _ (hold _ (.inl h))
    have hc : E.instrs.size ∉ l.continues := fun h => Nat.lt_irrefl _ (hold _ (.inr h))
    refine ⟨⟨⟨by simp, fun n _ hn => Starts.push E.instrs _ n hn, fun n _ hn => ?_,
      fun n _ hn => ?_, .refl _, .refl _, .refl _⟩, by simp [hl], by simp [hl],
      fun j hj hjE => ?_, rfl⟩, fun C brk cont hC => ⟨?_, by simp⟩⟩
    · cases b <;> simp [Emitter.breaks, hl, Nat.ne_of_lt hn]
    · cases b <;> simp [Emitter.continues, hl, Nat.ne_of_lt hn]
    · have hj' : j = E.instrs.size := by
        simp only [Emitter.exits, hl, List.mem_append, not_or] at hj hjE
        cases b <;> simp_all
      subst hj'
      exact ⟨Nat.le_refl _, by simp, by simp⟩
    · rw [hC.exits _ (by cases b <;> simp [Emitter.exits]) (Nat.le_refl _)]
      cases b <;> simp [Emitter.breaks, hb]

/-- Compiling a function literal: the final code has the literal's own code at the index. -/
theorem func (f : Func) (isExpr : Bool) :
    LaysAt E (Emit.func f isExpr) fun k C _ _ p q =>
      q = p ∧ ∃ code, f.code isExpr = .ok code ∧ C.funcs[k]? = some code := by
  intro _ k E' hrun
  rcases f with ⟨sp, nm, params, bsp, stmts⟩
  unfold Emit.func at hrun
  dsimp only at hrun
  split at hrun
  · next u inner hinner =>
    rw [Emit.run_addFunction] at hrun
    cases hrun
    refine ⟨Emitter.Grows.tables (.refl _) (.refl _) (.push _ _), fun C _ _ hC =>
      ⟨rfl, _, ?_, hC.funcs.get Array.getElem?_push_size⟩⟩
    unfold Func.code
    dsimp only
    rw [hinner]
  · cases hrun

/-- A jump `J` over the stretch `m` writes, aimed past it. -/
theorem jumpOver (J : Instr) {m : Emit Unit} {Y : Unit → Code → Nat → Nat → Nat → Nat → Prop}
    (hm : ∀ E1, E.Grows E1 → LaysAt E1 m Y) :
    LaysAt E (Emit.emit J >>= fun j => m >>= fun _ => Emit.aimHere j) fun _ C brk cont p r =>
      C.instrs[p]? = some (J.retarget r) ∧ Y () C brk cont (p + 1) r := by
  intro hF _ E' hrun
  obtain ⟨j, E1, hrun1, hrun⟩ := Emit.run_bind_ok hrun
  rw [Emit.run_emit] at hrun1
  cases hrun1
  obtain ⟨_, E2, hrun2, hrun3⟩ := Emit.run_bind_ok hrun
  rw [Emit.run_aimHere] at hrun3
  cases hrun3
  have hF1 := hF.push J
  obtain ⟨g2, hY⟩ := hm _ (Emitter.Grows.push E J) hF1 () E2 hrun2
  -- the jump is no loop exit: it was none when written, and the stretch after it keeps it so
  have hjx : E.instrs.size ∉ E2.exits :=
    g2.not_mem_exits (by simp) fun hx => Nat.lt_irrefl _ (hF _ hx)
  have hlt : E.instrs.size < E2.instrs.size := Nat.lt_of_lt_of_le (by simp) g2.size
  refine ⟨((Emitter.Grows.push E J).trans g2).aim (Nat.le_refl _) hjx _,
    fun C brk cont hC => ⟨?_, ?_⟩⟩
  · rw [hC.instrs _ (Nat.le_refl _) (by simpa using hlt) hjx]
    show (E2.instrs.modify _ _)[_]? = _
    rw [Array.getElem?_modify, if_pos rfl, g2.instrs _ (Nat.zero_le _) (by simp)]
    simp
  · have hY' := hY C brk cont ((hC.right (by simp)).left
      ((Emitter.Keeps.refl _ E2).aim (.inl (by simp)) _) (hF1.grows g2))
    simp only [Array.size_push, Array.size_modify] at hY' ⊢
    exact hY'

/-- `a && b` and `a || b`: the left side, a copy of its value, the jump past the right side when
it decides, and the right side after dropping the copy. -/
theorem logical (op : LogicalOp) {l r : Emit Unit} {Xl Xr : Unit → Code → Nat → Nat → Nat → Nat → Prop}
    (hl : LaysAt E l Xl) (hr : ∀ E1, E.Grows E1 → LaysAt E1 r Xr) :
    LaysAt E (Emit.logicalCode op l r) fun _ C brk cont p s => ∃ q, Xl () C brk cont p q ∧
      C.instrs[q]? = some .dup ∧
      C.instrs[q + 1]? = some ((if op = .and then Instr.jumpIfFalse 0 else .jumpIfTrue 0).retarget s) ∧
      C.instrs[q + 2]? = some .pop ∧ Xr () C brk cont (q + 3) s := by
  have hcode : Emit.logicalCode op l r = (l >>= fun _ => discard (Emit.emit .dup) >>= fun _ =>
      Emit.emit (if op = .and then .jumpIfFalse 0 else .jumpIfTrue 0) >>= fun j =>
        (discard (Emit.emit .pop) >>= fun _ => r) >>= fun _ => Emit.aimHere j) := by
    simp only [Emit.logicalCode, bind_assoc]
  rw [hcode]
  refine (hl.bind fun _ E1 g1 => (emit .dup).bind fun _ E2 g2 => jumpOver _ fun E3 g3 =>
    (emit .pop).bind fun _ E4 g4 => hr E4 (g1.trans (g2.trans (g3.trans g4)))).mono ?_
  intro _ C brk cont p s h
  obtain ⟨_, q, hXl, _, _, ⟨hdup, rfl⟩, hJ, _, _, ⟨hpop, rfl⟩, hXr⟩ := h
  exact ⟨q, hXl, hdup, hJ, hpop, hXr⟩

/-- `if` without `else`: the test, then a conditional jump past the branch. -/
theorem ifThen {test yes : Emit Unit} {Xt Xy : Unit → Code → Nat → Nat → Nat → Nat → Prop}
    (ht : LaysAt E test Xt) (hy : ∀ E1, E.Grows E1 → LaysAt E1 yes Xy) :
    LaysAt E (Emit.ifCode test yes) fun _ C brk cont p r => ∃ q, Xt () C brk cont p q ∧
      C.instrs[q]? = some (.jumpIfFalse r) ∧ Xy () C brk cont (q + 1) r := by
  refine (ht.bind fun _ E1 g1 => jumpOver (.jumpIfFalse 0) fun E2 g2 => hy E2 (g1.trans g2)).mono ?_
  intro _ C brk cont p r h
  obtain ⟨_, q, hXt, hJ, hXy⟩ := h
  exact ⟨q, hXt, hJ, hXy⟩

/-- `t ? y : n` and `if` with `else`: the test, a conditional jump to the second branch, the first
branch, and a jump from its end past the second. -/
theorem cond {test yes no : Emit Unit} {Xt Xy Xn : Unit → Code → Nat → Nat → Nat → Nat → Prop}
    (ht : LaysAt E test Xt) (hy : ∀ E1, E.Grows E1 → LaysAt E1 yes Xy)
    (hn : ∀ E1, E.Grows E1 → LaysAt E1 no Xn) :
    LaysAt E (Emit.condCode test yes no) fun _ C brk cont p s => ∃ q r, Xt () C brk cont p q ∧
      C.instrs[q]? = some (.jumpIfFalse (r + 1)) ∧ Xy () C brk cont (q + 1) r ∧
      C.instrs[r]? = some (.jump s) ∧ Xn () C brk cont (r + 1) s := by
  intro hF _ E' hrun
  -- the steps: test, `jumpIfFalse`, yes, `jump`, aim the first jump, no, aim the second
  obtain ⟨_, E1, hr1, hrun⟩ := Emit.run_bind_ok hrun
  obtain ⟨j, E2, hr2, hrun⟩ := Emit.run_bind_ok hrun
  rw [Emit.run_emit] at hr2
  cases hr2
  obtain ⟨_, E3, hr3, hrun⟩ := Emit.run_bind_ok hrun
  obtain ⟨k, E4, hr4, hrun⟩ := Emit.run_bind_ok hrun
  rw [Emit.run_emit] at hr4
  cases hr4
  obtain ⟨_, E5, hr5, hrun⟩ := Emit.run_bind_ok hrun
  rw [Emit.run_aimHere] at hr5
  cases hr5
  obtain ⟨_, E6, hr6, hr7⟩ := Emit.run_bind_ok hrun
  rw [Emit.run_aimHere] at hr7
  cases hr7
  obtain ⟨g1, hXt⟩ := ht hF () E1 hr1
  have hF1 := hF.grows g1
  have g2 := Emitter.Grows.push E1 (.jumpIfFalse 0)
  obtain ⟨g3, hXy⟩ := hy _ (g1.trans g2) (hF1.push _) () E3 hr3
  have hF3 := (hF1.push _).grows g3
  have g4 := Emitter.Grows.push E3 (.jump 0)
  have h01 : E.instrs.size ≤ E1.instrs.size := g1.size
  have h13 : E1.instrs.size + 1 ≤ E3.instrs.size := by simpa using g3.size
  -- neither jump is a loop exit
  have hjx : E1.instrs.size ∉ E3.exits :=
    g3.not_mem_exits (by simp) fun hx => Nat.lt_irrefl _ (hF1 _ hx)
  have hkx : E3.instrs.size ∉ E3.exits := fun hx => Nat.lt_irrefl _ (hF3 _ hx)
  have g15 := (g2.trans (g3.trans g4)).aim (Nat.le_refl _) hjx
    (Instr.retarget (E3.instrs.push (.jump 0)).size)
  have hF5 := hF1.grows g15
  obtain ⟨g6, hXn⟩ := hn _ (g1.trans g15) hF5 () E6 hr6
  have h36 : E3.instrs.size + 1 ≤ E6.instrs.size := by simpa using g6.size
  have hkx6 : E3.instrs.size ∉ E6.exits := g6.not_mem_exits (by simp) hkx
  have hjx6 : E1.instrs.size ∉ E6.exits := g6.not_mem_exits (by simp; omega) hjx
  have g17 := (g15.trans g6).aim (by omega) hkx6 (Instr.retarget E6.instrs.size)
  refine ⟨g1.trans g17, fun C brk cont hC => ⟨E1.instrs.size, E3.instrs.size,
    hXt C brk cont (hC.left (g17.keeps _) hF1), ?_, ?_, ?_, ?_⟩⟩
  · -- the conditional jump, aimed at the second branch
    rw [hC.instrs _ g1.size (by simp; omega) hjx6]
    show (E6.instrs.modify _ _)[_]? = _
    rw [Array.getElem?_modify, if_neg (by omega), g6.instrs _ (Nat.zero_le _) (by simp; omega)]
    show (Array.modify _ _ _)[_]? = _
    rw [Array.getElem?_modify, if_pos rfl, Array.getElem?_push, if_neg (by omega),
      g3.instrs _ (Nat.zero_le _) (by simp)]
    simp [Instr.retarget]
  · have hk : (E3.Keeps (E1.instrs.size + 1)) { E6 with
        instrs := E6.instrs.modify E3.instrs.size (Instr.retarget E6.instrs.size) } :=
      (((g4.keeps _).aim (.inl (Nat.lt_succ_self _)) _).trans (g6.keeps _)).aim
        (.inr (Nat.le_refl _)) _
    have hXy' := hXy C brk cont ((hC.right (by simp; omega)).left (by simpa using hk) hF3)
    simp only [Array.size_push] at hXy'
    exact hXy'
  · -- the jump over the second branch
    rw [hC.instrs _ (by omega) (by simp; omega) hkx6]
    show (E6.instrs.modify _ _)[_]? = _
    rw [Array.getElem?_modify, if_pos rfl, g6.instrs _ (Nat.zero_le _) (by simp)]
    show ((Array.modify _ _ _)[_]?).map _ = _
    rw [Array.getElem?_modify, if_neg (by omega)]
    simp
  · have hXn' := hXn C brk cont ((hC.right (by simp; omega)).left
      ((Emitter.Keeps.refl _ E6).aim (.inl (by simp)) _) (hF5.grows g6))
    simp only [Array.size_push, Array.size_modify] at hXn' ⊢
    exact hXn'

/-- `while`: the test from the loop's start, its conditional jump out, the body, and the jump back
to the start; in the body, `break` leads past the loop and `continue` back to the start. -/
theorem whileLoop {test body : Emit Unit} {Xt Xb : Unit → Code → Nat → Nat → Nat → Nat → Prop}
    (ht : LaysAt E test Xt) (hb : ∀ E1, E1.isScript = E.isScript → LaysAt E1 body Xb) :
    LaysAt E (Emit.whileCode test body) fun _ C brk cont p s => ∃ q r, Xt () C brk cont p q ∧
      C.instrs[q]? = some (.jumpIfFalse (r + 1)) ∧ Xb () C (r + 1) p (q + 1) r ∧
      C.instrs[r]? = some (.jump p) ∧ s = r + 1 := by
  intro hF _ E' hrun
  -- the steps: the start, the test, its jump out, open the loop, the body, the jump back, aim the
  -- jump out, close the loop
  obtain ⟨start, E0, hr0, hrun⟩ := Emit.run_bind_ok hrun
  rw [Emit.run_here] at hr0
  cases hr0
  obtain ⟨_, E1, hr1, hrun⟩ := Emit.run_bind_ok hrun
  obtain ⟨exit, E2, hr2, hrun⟩ := Emit.run_bind_ok hrun
  rw [Emit.run_emit] at hr2
  cases hr2
  obtain ⟨_, E3, hr3, hrun⟩ := Emit.run_bind_ok hrun
  rw [Emit.run_enterLoop] at hr3
  cases hr3
  obtain ⟨_, E4, hr4, hrun⟩ := Emit.run_bind_ok hrun
  obtain ⟨_, E5, hr5, hrun⟩ := Emit.run_bind_ok hrun
  rw [Emit.run_discard_emit] at hr5
  cases hr5
  obtain ⟨_, E6, hr6, hr7⟩ := Emit.run_bind_ok hrun
  rw [Emit.run_aimHere] at hr6
  obtain ⟨-, hE6⟩ := Prod.mk.inj (Except.ok.inj hr6)
  obtain ⟨g1, hXt⟩ := ht hF () E1 hr1
  have hF1 := hF.grows g1
  have h01 : E.instrs.size ≤ E1.instrs.size := g1.size
  -- the body runs in the new loop, whose exits start empty
  obtain ⟨g4, hXb⟩ := hb _ (by exact g1.isScript) (fun _ hj => by simp [Emitter.exits] at hj) () E4
    hr4
  have h34 : E1.instrs.size + 1 ≤ E4.instrs.size := by simpa using g4.size
  obtain ⟨l, hl⟩ : ∃ l, E4.loops = l :: E1.loops := by
    have ho : E4.loops.tail = E1.loops := g4.outer
    have hd : E4.loops.length = E1.loops.length + 1 := g4.depth
    cases h4 : E4.loops with
    | nil =>
      rw [h4] at hd
      simp at hd
    | cons l rest =>
      rw [h4, List.tail_cons] at ho
      exact ⟨l, by rw [ho]⟩
  have hl6 : E6.loops = l :: E1.loops := by rw [← hE6]; exact hl
  rw [Emit.run_leaveLoop hl6] at hr7
  obtain ⟨-, hE'⟩ := Prod.mk.inj (Except.ok.inj hr7)
  have hsize6 : E6.instrs.size = E4.instrs.size + 1 := by rw [← hE6]; simp
  -- the body's exits lie in the body
  have hpos : ∀ j, j ∈ l.breaks ∨ j ∈ l.continues →
      E1.instrs.size + 1 ≤ j ∧ j < E4.instrs.size := fun j hj => by
    obtain ⟨hlo, hhi, -⟩ := g4.fresh j (by simp [Emitter.exits, hl]; exact hj)
      (by simp [Emitter.exits])
    simp only [Array.size_push] at hlo
    exact ⟨hlo, hhi⟩
  -- what the closed loop holds outside the body's exits
  have hget : ∀ n, n ∉ l.breaks → n ∉ l.continues → E'.instrs[n]? =
      ((E4.instrs.push (.jump E.instrs.size)).modify E1.instrs.size
        (Instr.retarget (E4.instrs.size + 1)))[n]? := fun n hb hc => by
    rw [← hE']
    show (aimAll (aimAll _ _ _) _ _)[n]? = _
    rw [getElem?_aimAll, getElem?_aimAll, if_neg hb, if_neg hc, ← hE6]
    simp
  have hout : ∀ n, (n < E1.instrs.size + 1 ∨ E4.instrs.size ≤ n) → n ∉ l.breaks ∧ n ∉ l.continues :=
    fun n hn => ⟨fun h => by have := hpos n (.inl h); omega,
      fun h => by have := hpos n (.inr h); omega⟩
  have hsize : E'.instrs.size = E4.instrs.size + 1 := by rw [← hE']; simp [hsize6]
  have hloops : E'.loops = E1.loops := by rw [← hE']
  have hk17 : E1.Keeps 0 E' :=
    { size := by omega
      instrs := fun n _ hn => by
        rw [hget n (hout n (.inl (by omega))).1 (hout n (.inl (by omega))).2, Array.getElem?_modify,
          if_neg (by omega), Array.getElem?_push, if_neg (by omega),
          g4.instrs n (Nat.zero_le _) (by simp; omega), Array.getElem?_push, if_neg (by omega)]
      breaks := fun _ _ _ => by simp only [Emitter.breaks, hloops]
      continues := fun _ _ _ => by simp only [Emitter.continues, hloops]
      consts := by rw [← hE', ← hE6]; exact g4.consts
      names := by rw [← hE', ← hE6]; exact g4.names
      funcs := by rw [← hE', ← hE6]; exact g4.funcs }
  have hx' : ∀ n ∈ E'.exits, n < E1.instrs.size := fun n hn => by
    unfold Emitter.exits at hn
    rw [hloops] at hn
    exact hF1 n hn
  refine ⟨g1.close hk17 hloops (by rw [← hE', ← hE6]; exact g4.isScript), fun C brk cont hC =>
    ⟨E1.instrs.size, E4.instrs.size, hXt C brk cont (hC.left (hk17.mono (Nat.zero_le _)) hF1),
      ?_, ?_, ?_, hsize⟩⟩
  · -- the jump out, aimed past the jump back
    rw [hC.instrs _ h01 (by omega) fun hx => Nat.lt_irrefl _ (hx' _ hx),
      hget _ (hout _ (.inl (by omega))).1 (hout _ (.inl (by omega))).2, Array.getElem?_modify,
      if_pos rfl, Array.getElem?_push, if_neg (by omega), g4.instrs _ (Nat.zero_le _) (by simp)]
    simp [Instr.retarget]
  · rw [← hE'] at hC
    have hk6 : E4.Keeps (E1.instrs.size + 1) E6 := by
      rw [← hE6]
      exact ((Emitter.Grows.push E4 _).keeps _).aim (.inl (Nat.lt_succ_self _)) _
    have hXb' := hXb C _ _ (Code.Holds.loop_body hC (by simp; omega) (by simp [Emitter.exits]) g4 hl
      (by simpa using hk6) fun n hn => Nat.lt_of_lt_of_le (hF1 n hn) (by simp))
    simp only [Array.size_push, hsize6] at hXb'
    exact hXb'
  · -- the jump back
    rw [hC.instrs _ (by omega) (by omega) fun hx => absurd (hx' _ hx) (by omega),
      hget _ (hout _ (.inr (Nat.le_refl _))).1 (hout _ (.inr (Nat.le_refl _))).2,
      Array.getElem?_modify, if_neg (by omega)]
    simp

/-- The update of a `for` loop, its value dropped; nothing when there is none. -/
theorem loopUpdate {update : Option (Emit Unit)} {Xu : Unit → Code → Nat → Nat → Nat → Nat → Prop}
    (hu : ∀ m, update = some m → ∀ E1, LaysAt E1 m Xu) :
    LaysAt E (Emit.loopUpdate update) fun _ C brk cont p q => update = none ∧ q = p ∨
      ∃ v, update.isSome ∧ Xu () C brk cont p v ∧ C.instrs[v]? = some .pop ∧ q = v + 1 := by
  cases update with
  | none =>
    refine (LaysAt.pure ()).mono fun _ _ _ _ _ _ h => .inl ⟨rfl, h.2⟩
  | some m =>
    refine ((hu m rfl E).bind fun _ E1 _ => emit .pop).mono fun _ _ _ _ _ _ h => ?_
    obtain ⟨_, v, hXu, hpop, rfl⟩ := h
    exact .inr ⟨v, rfl, hXu, hpop, rfl⟩

/-- The test of a `for` loop: nothing when there is none, else the test's stretch and its jump
out, still to be aimed. -/
theorem loopTest_run {test : Option (Emit Unit)} {Xt : Unit → Code → Nat → Nat → Nat → Nat → Prop}
    (ht : ∀ m, test = some m → ∀ E1, LaysAt E1 m Xt) (hF : E.Fresh) {exit : Option Nat}
    {E2 : Emitter} (hrun : (Emit.loopTest test).run E = .ok (exit, E2)) :
    E.Grows E2 ∧ (test = none ∧ exit = none ∧ E2 = E ∨ ∃ E1, test.isSome ∧
      exit = some E1.instrs.size ∧ E2 = { E1 with instrs := E1.instrs.push (.jumpIfFalse 0) } ∧
      E.Grows E1 ∧ E1.Fresh ∧
      ∀ C brk cont, C.Holds E E1 brk cont → Xt () C brk cont E.instrs.size E1.instrs.size) := by
  cases test with
  | none =>
    cases hrun
    exact ⟨Emitter.Grows.refl E, .inl ⟨rfl, rfl, rfl⟩⟩
  | some m =>
    obtain ⟨_, E1, hr1, hr2⟩ := Emit.run_bind_ok hrun
    obtain ⟨g1, hXt⟩ := ht m rfl E hF () E1 hr1
    rw [show (some <$> Emit.emit (.jumpIfFalse 0)).run E1 =
      .ok (some E1.instrs.size, { E1 with instrs := E1.instrs.push (.jumpIfFalse 0) }) from rfl]
      at hr2
    cases hr2
    exact ⟨g1.trans (Emitter.Grows.push E1 _), .inr ⟨E1, rfl, rfl, rfl, g1, hF.grows g1, hXt⟩⟩

theorem run_aimExit_eq (exit : Option Nat) : (Emit.aimExit exit).run E = .ok ((), { E with
    instrs := exit.elim E.instrs fun j => E.instrs.modify j (Instr.retarget E.instrs.size) }) := by
  cases exit <;> rfl

@[simp] theorem size_aimExit {is : Array Instr} {f : Instr → Instr} (exit : Option Nat) :
    (exit.elim is fun j => is.modify j f).size = is.size := by
  cases exit <;> simp

theorem getElem?_aimExit {is : Array Instr} {f : Instr → Instr} (exit : Option Nat) (n : Nat) :
    (exit.elim is fun j => is.modify j f)[n]? = if exit = some n then is[n]?.map f else is[n]? := by
  cases exit with
  | none => simp
  | some j =>
    by_cases hj : j = n
    · simp [hj, Array.getElem?_modify]
    · simp [hj, Array.getElem?_modify]

/-- `for`: the first clause, then from the loop's start the test (if any) with its conditional
jump out, the body, the update (if any) with its value dropped, and the jump back to the start; in
the body, `break` leads past the loop and `continue` to the update. -/
theorem forLoop {init body : Emit Unit} {test update : Option (Emit Unit)}
    {Xi Xt Xb Xu : Unit → Code → Nat → Nat → Nat → Nat → Prop}
    (hi : LaysAt E init Xi) (ht : ∀ m, test = some m → ∀ E1, LaysAt E1 m Xt)
    (hb : ∀ E1, E1.isScript = E.isScript → LaysAt E1 body Xb)
    (hu : ∀ m, update = some m → ∀ E1, LaysAt E1 m Xu) :
    LaysAt E (Emit.forCode init test update body) fun _ C brk cont p s => ∃ a q r u,
      Xi () C brk cont p a ∧
      (test = none ∧ q = a ∨ ∃ t, test.isSome ∧ Xt () C brk cont a t ∧
        C.instrs[t]? = some (.jumpIfFalse s) ∧ q = t + 1) ∧
      Xb () C s r q r ∧
      (update = none ∧ u = r ∨
        ∃ v, update.isSome ∧ Xu () C s r r v ∧ C.instrs[v]? = some .pop ∧ u = v + 1) ∧
      C.instrs[u]? = some (.jump a) ∧ s = u + 1 := by
  intro hF _ E' hrun
  -- the steps: the first clause, the start, the test, open the loop, the body, the update, the
  -- jump back, aim the test's jump out, close the loop
  obtain ⟨_, E1, hr1, hrun⟩ := Emit.run_bind_ok hrun
  obtain ⟨start, E1', hr0, hrun⟩ := Emit.run_bind_ok hrun
  rw [Emit.run_here] at hr0
  cases hr0
  obtain ⟨exit, E2, hr2, hrun⟩ := Emit.run_bind_ok hrun
  obtain ⟨_, E3, hr3, hrun⟩ := Emit.run_bind_ok hrun
  rw [Emit.run_enterLoop] at hr3
  cases hr3
  obtain ⟨_, E4, hr4, hrun⟩ := Emit.run_bind_ok hrun
  obtain ⟨next, E4', hr4', hrun⟩ := Emit.run_bind_ok hrun
  rw [Emit.run_here] at hr4'
  cases hr4'
  obtain ⟨_, E5, hr5, hrun⟩ := Emit.run_bind_ok hrun
  obtain ⟨_, E6, hr6, hrun⟩ := Emit.run_bind_ok hrun
  rw [Emit.run_discard_emit] at hr6
  cases hr6
  obtain ⟨_, E7, hr7, hr8⟩ := Emit.run_bind_ok hrun
  rw [run_aimExit_eq] at hr7
  obtain ⟨-, hE7⟩ := Prod.mk.inj (Except.ok.inj hr7)
  obtain ⟨g1, hXi⟩ := hi hF () E1 hr1
  have hF1 := hF.grows g1
  obtain ⟨g2, htest⟩ := loopTest_run ht hF1 hr2
  have hF2 := hF1.grows g2
  obtain ⟨g4, hXb⟩ := hb _ (by exact g2.isScript.trans g1.isScript)
    (fun _ hj => by simp [Emitter.exits] at hj) () E4 hr4
  have hF4 : E4.Fresh := (show Emitter.Fresh { E2 with loops := ⟨[], []⟩ :: E2.loops } from
    fun _ hj => by simp [Emitter.exits] at hj).grows g4
  obtain ⟨g5, hXu⟩ := loopUpdate hu hF4 () E5 hr5
  have hF5 := hF4.grows g5
  obtain ⟨l, hl⟩ := (g4.trans g5).loops_of_enter
  have hl7 : E7.loops = l :: E2.loops := by rw [← hE7]; exact hl
  rw [Emit.run_leaveLoop hl7] at hr8
  obtain ⟨-, hE'⟩ := Prod.mk.inj (Except.ok.inj hr8)
  have h01 : E.instrs.size ≤ E1.instrs.size := g1.size
  have h12 : E1.instrs.size ≤ E2.instrs.size := g2.size
  have h24 : E2.instrs.size ≤ E4.instrs.size := by simpa using g4.size
  have h45 : E4.instrs.size ≤ E5.instrs.size := g5.size
  -- the jump out of the test, if any, lies after the first clause and before the body
  have hexit : ∀ j, exit = some j → E1.instrs.size ≤ j ∧ j + 1 = E2.instrs.size ∧
      j ∉ E2.exits ∧ E2.instrs[j]? = some (.jumpIfFalse 0) := by
    intro j hj
    rcases htest with ⟨-, hnone, -⟩ | ⟨E1m, -, hsome, rfl, g1m, hF1m, -⟩
    · rw [hnone] at hj
      cases hj
    · rw [hsome] at hj
      cases hj
      exact ⟨g1m.size, by simp, fun hx => Nat.lt_irrefl _ (hF1m _ hx), by simp⟩
  -- the exits of the body and the update lie after the test
  have hpos : ∀ j, j ∈ l.breaks ∨ j ∈ l.continues →
      E2.instrs.size ≤ j ∧ j < E5.instrs.size := fun j hj => by
    obtain ⟨hlo, hhi, -⟩ := (g4.trans g5).fresh j (by simp [Emitter.exits, hl]; exact hj)
      (by simp [Emitter.exits])
    exact ⟨hlo, hhi⟩
  have hout : ∀ n, (n < E2.instrs.size ∨ E5.instrs.size ≤ n) →
      n ∉ l.breaks ∧ n ∉ l.continues := fun n hn =>
    ⟨fun h => by have := hpos n (.inl h); omega, fun h => by have := hpos n (.inr h); omega⟩
  -- what the closed loop holds outside the exits of the body and the update
  have hget : ∀ n, n ∉ l.breaks → n ∉ l.continues → E'.instrs[n]? =
      if exit = some n then (E5.instrs.push (.jump E1.instrs.size))[n]?.map
        (Instr.retarget (E5.instrs.size + 1)) else (E5.instrs.push (.jump E1.instrs.size))[n]? :=
    fun n hb hc => by
      rw [← hE']
      show (aimAll (aimAll _ _ _) _ _)[n]? = _
      rw [getElem?_aimAll, getElem?_aimAll, if_neg hb, if_neg hc, ← hE7, getElem?_aimExit]
      simp
  have hsize : E'.instrs.size = E5.instrs.size + 1 := by rw [← hE', ← hE7]; simp
  have hloops : E'.loops = E2.loops := by rw [← hE']
  have hx2 : ∀ n ∈ E'.exits, n ∈ E2.exits := fun n hn => by
    unfold Emitter.exits at hn
    rw [hloops] at hn
    exact hn
  have hx' : ∀ n ∈ E'.exits, n < E2.instrs.size := fun n hn => hF2 n (hx2 n hn)
  have hbelow : ∀ n, n < E2.instrs.size → E5.instrs[n]? = E2.instrs[n]? := fun n hn =>
    (g5.instrs n (Nat.zero_le _) (by omega)).trans (g4.instrs n (Nat.zero_le _) (by simpa using hn))
  -- the final emitter keeps the test's emitter with its jump out aimed
  have hk2 : Emitter.Keeps 0 { E2 with
      instrs := exit.elim E2.instrs fun j => E2.instrs.modify j (Instr.retarget (E5.instrs.size + 1)) }
      E' :=
    { size := by simp; omega
      instrs := fun n _ hn => by
        have hn' : n < E2.instrs.size := by simpa using hn
        have hne : n ≠ E5.instrs.size := by omega
        show E'.instrs[n]? = (exit.elim _ _)[n]?
        rw [hget n (hout n (.inl hn')).1 (hout n (.inl hn')).2, getElem?_aimExit,
          Array.getElem?_push, if_neg hne, hbelow n hn']
      breaks := fun _ _ _ => by simp only [Emitter.breaks, hloops]
      continues := fun _ _ _ => by simp only [Emitter.continues, hloops]
      consts := by rw [← hE', ← hE7]; exact (g4.trans g5).consts
      names := by rw [← hE', ← hE7]; exact (g4.trans g5).names
      funcs := by rw [← hE', ← hE7]; exact (g4.trans g5).funcs }
  have g2a := g2.aimExit (fun j hj => ⟨(hexit j hj).1, (hexit j hj).2.2.1⟩)
    (Instr.retarget (E5.instrs.size + 1))
  refine ⟨(g1.trans g2a).close hk2 hloops (by rw [← hE', ← hE7]; exact (g4.trans g5).isScript),
    fun C brk cont hC => ?_⟩
  -- the body and the update, whose exits the closed loop aims
  have hC' := hC
  rw [← hE'] at hC'
  have hk7 : E5.Keeps (E2.instrs.size) E7 := by
    rw [← hE7]
    exact ((Emitter.Grows.push E5 _).keeps _).aimExit
      (fun j hj => .inl (by have := (hexit j hj).2.1; omega)) _
  have hinner := Code.Holds.loop_body hC' (by simp; omega) (by simp [Emitter.exits]) (g4.trans g5)
    hl (by simpa using hk7) fun n hn => by simpa using hF2 n hn
  have h7 : E7.instrs.size = E5.instrs.size + 1 := by rw [← hE7]; simp
  rw [h7] at hinner
  refine ⟨E1.instrs.size, E2.instrs.size, E4.instrs.size, E5.instrs.size,
    hXi C brk cont (hC.left ((g2a.keeps _).trans (hk2.mono (Nat.zero_le _))) hF1), ?_, ?_, ?_,
    ?_, hsize⟩
  · -- the test and its jump out, aimed past the loop
    rcases htest with ⟨hnone, -, rfl⟩ | ⟨E1m, hsome, hexit', rfl, g1m, hF1m, hXt⟩
    · exact .inl ⟨hnone, rfl⟩
    · have h1m : E1.instrs.size ≤ E1m.instrs.size := g1m.size
      have h2m : ({ E1m with instrs := E1m.instrs.push (.jumpIfFalse 0) } : Emitter).instrs.size =
          E1m.instrs.size + 1 := by simp
      refine .inr ⟨E1m.instrs.size, hsome, hXt C brk cont ((hC.right h01).left ?_ hF1m), ?_,
        by simp⟩
      · rw [hexit'] at hk2
        exact (((Emitter.Grows.push E1m _).keeps _).aim (.inr (Nat.le_refl _)) _).trans
          (hk2.mono (Nat.zero_le _))
      · have hj := hexit _ hexit'
        rw [hC.instrs _ (by omega) (by omega) fun hx => hj.2.2.1 (hx2 _ hx),
          hget _ (hout _ (.inl (by omega))).1 (hout _ (.inl (by omega))).2, if_pos hexit',
          Array.getElem?_push, if_neg (by omega), hbelow _ (by omega), hj.2.2.2, hsize]
        rfl
  · rw [hsize]
    exact hXb C _ _ (hinner.left (g5.keeps _) hF4)
  · rw [hsize]
    exact hXu C _ _ (hinner.right (by simpa using h24))
  · -- the jump back
    rw [hC.instrs _ (by omega) (by omega) fun hx => absurd (hx' _ hx) (by omega),
      hget _ (hout _ (.inr (Nat.le_refl _))).1 (hout _ (.inr (Nat.le_refl _))).2,
      if_neg fun h => by have := (hexit _ h).2.1; omega]
    simp

end LaysAt

end EcmaLite
