import Mathlib.Data.List.Basic
import EcmaLite.Code.Instr

/-!
# Stack plans of code

The stack machine has fallbacks for a stack that runs dry: popping an empty stack gives
`undefined`, and `newArray`, `call` and their kind take as many values as there are. Code that
never needs them has a *stack plan*: for each instruction index, the shape of the operand stack
when that instruction runs. A shape is the stack's height together with which of its slots are
known to hold an object; the only instruction that needs to know is `initProp`, which stores an
entry of an object literal into the object under the entry's value.

A plan is checked one instruction at a time (`PlanStep`): the instruction finds the values it takes,
and the shape it leaves claims no more than the plan at each place control goes next. The heights
of a plan (`Code.Heights`) are a stack-height assignment that agrees across every edge and never
lets an instruction take more values than there are.

`Code.WellFormed` collects what compiled code satisfies: every table index in range, every jump
inside the code, a stack plan, the right last instructions, and the same for every function
literal inside.
-/

namespace EcmaLite

/-- What a stack plan knows of one slot of the operand stack. -/
inductive Slot where
  /-- The slot holds an object. -/
  | obj
  /-- Nothing is known of the slot. -/
  | any
  deriving DecidableEq

/-- The shape of the operand stack, top first. -/
abbrev StackShape := List Slot

namespace StackShape

/-- `t` has the height of `s` and claims no more: where `t` knows of an object, so does `s`. -/
def Weaker (s t : StackShape) : Prop :=
  s.length = t.length ∧ ∀ k : Nat, t[k]? = some Slot.obj → s[k]? = some Slot.obj

theorem Weaker.refl (s : StackShape) : s.Weaker s := ⟨rfl, fun _ h => h⟩

theorem Weaker.trans {s t u : StackShape} (h : s.Weaker t) (h' : t.Weaker u) : s.Weaker u :=
  ⟨h.1.trans h'.1, fun k hk => h.2 k (h'.2 k hk)⟩

/-- Forgetting what is known of the top slot. -/
theorem weaker_any (x : Slot) (s : StackShape) : StackShape.Weaker (x :: s) (.any :: s) := by
  refine ⟨rfl, fun k hk => ?_⟩
  cases k with
  | zero => cases hk
  | succ k => exact hk

end StackShape

namespace Instr

/-- How many values the instruction takes from the stack. An instruction that reads the top value
and leaves it (`dup`, `setVar`) counts as taking it and putting it back. -/
def pops : Instr → Nat
  | .pushConst _ | .pushUndefined | .pushNull | .pushTrue | .pushFalse => 0
  | .add | .sub | .mul | .div | .mod => 2
  | .negate | .toNumber => 1
  | .strictEq | .strictNe | .looseEq | .looseNe | .lt | .le | .gt | .ge => 2
  | .instanceOf | .hasIn => 2
  | .not | .typeOf | .void => 1
  | .typeOfVar _ | .getVar _ => 0
  | .setVar _ => 1
  | .declareVar _ => 0
  | .bindFunction _ => 1
  | .jump _ => 0
  | .jumpIfFalse _ | .jumpIfTrue _ | .pop | .dup => 1
  | .dup2 => 2
  | .getProp _ => 1
  | .setProp _ | .getElem => 2
  | .setElem => 3
  | .deleteProp _ => 1
  | .deleteElem => 2
  | .newObject => 0
  | .initProp _ => 2
  | .newArray c => c
  | .makeClosure _ => 0
  | .call c | .construct c => c + 1
  | .callMethod c => c + 2
  | .this => 0
  | .setCompletion | .ret => 1
  | .halt => 0
  | .updateVar .. => 0
  | .updateProp .. => 1
  | .updateElem .. => 2

/-- The shapes of the values the instruction leaves on the stack, top first. -/
def pushed : Instr → StackShape
  | .declareVar _ | .bindFunction _ | .jump _ | .jumpIfFalse _ | .jumpIfTrue _ | .pop
  | .setCompletion | .ret | .halt => []
  | .dup => [.any, .any]
  | .dup2 => [.any, .any, .any, .any]
  | .newObject | .initProp _ => [.obj]
  | _ => [.any]

/-- Whether the instruction after this one runs next (unless it jumps). -/
def falls : Instr → Bool
  | .jump _ | .ret | .halt => false
  | _ => true

/-- Where a jump may continue. -/
def target? : Instr → Option Nat
  | .jump t | .jumpIfFalse t | .jumpIfTrue t => some t
  | _ => none

/-- The index into the constant table. -/
def constRef? : Instr → Option Nat
  | .pushConst k => some k
  | _ => none

/-- The index into the function table. -/
def funcRef? : Instr → Option Nat
  | .makeClosure k => some k
  | _ => none

/-- The index into the name table. -/
def nameRef? : Instr → Option Nat
  | .typeOfVar k | .getVar k | .setVar k | .declareVar k | .bindFunction k | .getProp k
  | .setProp k | .deleteProp k | .initProp k | .updateVar k _ _ | .updateProp k _ _ => some k
  | _ => none

/-- The shape after the instruction ran on shape `s`. -/
def after (i : Instr) (s : StackShape) : StackShape := i.pushed ++ s.drop i.pops

/-- StackShape `s` has what the instruction takes: enough values, and for `initProp` an object under
the value it stores. -/
def Fits (i : Instr) (s : StackShape) : Prop :=
  i.pops ≤ s.length ∧ ∀ k, i = .initProp k → s[1]? = some Slot.obj

theorem length_after (i : Instr) (s : StackShape) :
    (i.after s).length = s.length - i.pops + i.pushed.length := by
  simp only [after, List.length_append, List.length_drop]
  omega

end Instr

/-- What a plan `a` asks of instruction `i` at index `n`: the instruction fits the shape there,
and the shape it leaves claims no more than the plan where control goes next. -/
structure PlanStep (a : Nat → StackShape) (n : Nat) (i : Instr) : Prop where
  fits : i.Fits (a n)
  next : i.falls → StackShape.Weaker (i.after (a n)) (a (n + 1))
  jump : ∀ t, i.target? = some t → StackShape.Weaker (i.after (a n)) (a t)

/-- The instructions every code ends with: `halt` for a script, and `return undefined` for a
function body. -/
def ending : Bool → List Instr
  | true => [.halt]
  | false => [.pushUndefined, .ret]

namespace Code

/-- A stack plan of the code: the stack is empty at the start, and every instruction runs as
planned. -/
structure StackPlan (c : Code) (a : Nat → StackShape) : Prop where
  start : a 0 = []
  step : ∀ n i, c.instrs[n]? = some i → PlanStep a n i

/-- A stack-height assignment: zero at the start, never below what an instruction takes, and
the same along every edge, to the next instruction and to a jump's target. -/
structure Heights (c : Code) (h : Nat → Nat) : Prop where
  start : h 0 = 0
  pops : ∀ n i, c.instrs[n]? = some i → i.pops ≤ h n
  next : ∀ n i, c.instrs[n]? = some i → i.falls → h (n + 1) = h n - i.pops + i.pushed.length
  jump : ∀ n i t, c.instrs[n]? = some i → i.target? = some t →
    h t = h n - i.pops + i.pushed.length

/-- The heights of a stack plan. -/
theorem StackPlan.heights {c : Code} {a : Nat → StackShape} (hp : c.StackPlan a) :
    c.Heights fun n => (a n).length where
  start := by simp only [hp.start, List.length_nil]
  pops n i hi := (hp.step n i hi).fits.1
  next n i hi hf := by
    rw [← ((hp.step n i hi).next hf).1]
    exact Instr.length_after i (a n)
  jump n i t hi ht := by
    rw [← ((hp.step n i hi).jump t ht).1]
    exact Instr.length_after i (a n)

/-- What compiled code of a script (`isScript`) or of a function body satisfies on its own. -/
structure Local (isScript : Bool) (c : Code) : Prop where
  consts : ∀ i ∈ c.instrs, ∀ k, i.constRef? = some k → k < c.consts.size
  names : ∀ i ∈ c.instrs, ∀ k, i.nameRef? = some k → k < c.names.size
  funcs : ∀ i ∈ c.instrs, ∀ k, i.funcRef? = some k → k < c.funcs.size
  targets : ∀ i ∈ c.instrs, ∀ t, i.target? = some t → t < c.instrs.size
  plan : ∃ a, c.StackPlan a
  ends : ending isScript <:+ c.instrs.toList

/-- Code that is well formed, and so is the code of every function literal inside. -/
inductive WellFormed : Bool → Code → Prop
  | intro {isScript : Bool} {c : Code} : c.Local isScript → (∀ f ∈ c.funcs, WellFormed false f) →
      WellFormed isScript c

end Code

end EcmaLite
