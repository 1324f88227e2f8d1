import Mathlib.Data.List.Forall2
import EcmaLite.Proofs.CompilePlan
import EcmaLite.Proofs.Keeps

/-!
# Runs of code with a stack plan

The machine takes `undefined` from an empty stack and lets `newArray` and the calls take fewer
values than they ask for; `initProp` skips a store when the value under the entry is no object.
Code with a stack plan never needs any of that. A frame of such code is `At` an instruction with
its stack of the shape the plan gives there (`Frame.At`), and one instruction, whatever the world
does and whatever its calls return, leaves a frame at the next instruction or at its jump's
target with the stack shaped as the plan says (`Run.step_follows`, `Code.StackPlan.step_at`). So
every frame a run passes through matches the plan (`Code.StackPlan.at_of_visits`), and every
instruction finds what it takes (`Code.StackPlan.fits_of_visits`). With the compiler's plan
(`Program.compile_wellFormed`) this holds of every run of compiled code
(`compiled_code_well_formed`).
-/

namespace EcmaLite

/-- What a slot of a stack plan says of the value in it. -/
def Slot.Holds : Slot → Value → Prop
  | .obj, v => ∃ id, v = .obj id
  | .any, _ => True

namespace StackShape

variable {σ τ : StackShape} {vs : List Value}

/-- The values `vs` fill shape `σ`: one value a slot, an object where `σ` knows of one. -/
def Holds (σ : StackShape) (vs : List Value) : Prop := List.Forall₂ Slot.Holds σ vs

theorem Holds.length (h : σ.Holds vs) : vs.length = σ.length := h.length_eq.symm

/-- Values that fill a shape fill every shape that claims no more. -/
theorem Holds.weaker (h : σ.Holds vs) (hw : σ.Weaker τ) : τ.Holds vs := by
  induction h generalizing τ with
  | nil =>
    obtain ⟨hlen, -⟩ := hw
    rw [List.eq_nil_of_length_eq_zero hlen.symm]
    exact List.Forall₂.nil
  | @cons x v σ vs hxv _ ih =>
    obtain ⟨hlen, hobj⟩ := hw
    cases τ with
    | nil => cases hlen
    | cons y τ =>
      refine List.Forall₂.cons ?_ (ih ⟨Nat.succ.inj hlen, fun k hk => hobj (k + 1) hk⟩)
      cases y with
      | any => trivial
      | obj =>
        -- a slot known to hold an object in the weaker shape is known to in the first one
        have hx : x = .obj := Option.some.inj (hobj 0 rfl)
        exact hx ▸ hxv

theorem Holds.drop (h : σ.Holds vs) (n : Nat) : Holds (σ.drop n) (vs.drop n) :=
  List.forall₂_drop n h

/-- The top value, whatever it held, holds any value. -/
theorem Holds.forget (h : σ.Holds vs) (hlen : 1 ≤ σ.length) : Holds (.any :: σ.drop 1) vs := by
  cases h with
  | nil => cases hlen
  | cons _ hrest => exact List.Forall₂.cons trivial hrest

theorem Holds.obj_second (h : σ.Holds vs) (h1 : σ[1]? = some .obj) :
    ∃ id, vs[1]? = some (.obj id) := by
  match σ, vs, h with
  | [], [], .nil => cases h1
  | [_], [_], .cons _ .nil => cases h1
  | _ :: _ :: _, _ :: v :: _, .cons _ (.cons hv _) =>
    cases h1
    obtain ⟨id, rfl⟩ := hv
    exact ⟨id, rfl⟩

end StackShape

namespace Frame

/-! Taking a value off the stack leaves the frame's code and place in it. -/

variable {fr : Frame}

@[simp] theorem pop_code : fr.pop.2.code = fr.code := by
  unfold pop
  split <;> rfl

@[simp] theorem pop_ip : fr.pop.2.ip = fr.ip := by
  unfold pop
  split <;> rfl

@[simp] theorem pop_stack : fr.pop.2.stack = fr.stack.drop 1 := by
  unfold pop
  split <;> simp_all

/-- The object of an entry of an object literal is the second value from the top. -/
theorem pop2_fst_of_second {v : Value} (h : fr.stack[1]? = some v) : fr.pop2.1 = v := by
  obtain ⟨code, ip, stack, scope, this, completion, global⟩ := fr
  match stack, h with
  | _ :: _ :: _, h =>
    cases h
    rfl

/-- Frame `fr` runs code `c` at instruction `ip`, its stack of shape `σ`. -/
structure At (c : Code) (ip : Nat) (σ : StackShape) (fr : Frame) : Prop where
  code : fr.code = c
  ip : fr.ip = ip
  stack : σ.Holds fr.stack

namespace At

variable {c : Code} {n : Nat} {σ : StackShape}

theorem push (h : fr.At c n σ) {x : Slot} {v : Value} (hv : x.Holds v) :
    (fr.push v).At c n (x :: σ) :=
  ⟨h.code, h.ip, List.Forall₂.cons hv h.stack⟩

theorem push_any (h : fr.At c n σ) {v : Value} : (fr.push v).At c n (.any :: σ) :=
  h.push trivial

theorem pop_snd (h : fr.At c n σ) : fr.pop.2.At c n (σ.drop 1) :=
  ⟨by rw [pop_code, h.code], by rw [pop_ip, h.ip], by rw [pop_stack]; exact h.stack.drop 1⟩

theorem pop2_snd (h : fr.At c n σ) : fr.pop2.2.2.At c n (σ.drop 2) := by
  have h2 := h.pop_snd.pop_snd
  rw [List.drop_drop] at h2
  exact h2

theorem popN_snd (h : fr.At c n σ) {k : Nat} : (fr.popN k).2.At c n (σ.drop k) :=
  ⟨h.code, h.ip, h.stack.drop k⟩

theorem goto (h : fr.At c n σ) {t : Nat} : (fr.goto t).At c t σ :=
  ⟨h.code, rfl, h.stack⟩

theorem with_completion (h : fr.At c n σ) {v : Value} : { fr with completion := v }.At c n σ :=
  ⟨h.code, h.ip, h.stack⟩

theorem forget (h : fr.At c n σ) (hlen : 1 ≤ σ.length) : fr.At c n (.any :: σ.drop 1) :=
  ⟨h.code, h.ip, h.stack.forget hlen⟩

/-- The arguments of a call, then the value under them. -/
theorem popN_pop (h : fr.At c n σ) {k : Nat} : (fr.popN k).2.pop.2.At c n (σ.drop (k + 1)) := by
  have h1 := (h.popN_snd (k := k)).pop_snd
  rw [List.drop_drop] at h1
  exact h1

/-- The arguments of a method call, then the function and the receiver under them. -/
theorem popN_pop2 (h : fr.At c n σ) {k : Nat} :
    (fr.popN k).2.pop2.2.2.At c n (σ.drop (k + 2)) := by
  have h2 := (h.popN_snd (k := k)).pop2_snd
  rw [List.drop_drop] at h2
  exact h2

/-- The value stored by `setElem`, then the object and the key under it. -/
theorem pop_pop2 (h : fr.At c n σ) : fr.pop.2.pop2.2.2.At c n (σ.drop 3) := by
  have h3 := h.pop_snd.pop2_snd
  rw [List.drop_drop] at h3
  exact h3

end At

end Frame

/-- What an instruction run from shape `σ` at index `n` of code `c` may leave: a frame at the
next instruction, or at the jump's target, with its stack of the shape the instruction makes of
`σ`; or the value the code finishes with. -/
def Next.Follows (c : Code) (n : Nat) (i : Instr) (σ : StackShape) : Next → Prop
  | .go fr => (i.falls = true ∧ fr.At c (n + 1) (i.after σ)) ∨
      ∃ t, i.target? = some t ∧ fr.At c t (i.after σ)
  | .finish _ => True

namespace Run

variable {w : World} {c : Code} {n : Nat} {σ : StackShape} {fr : Frame} {i : Instr}

/-- Every run keeps the invariant that holds of every world. -/
theorem keeps_any {α : Type} (x : Run α) :
    EcmaLite.Keeps (fun _ => True) (fun _ => 0) x w fun _ _ => True := by
  show Ends _ _ w _ (x w)
  cases x w with
  | ok a w' => exact ⟨⟨trivial, Nat.le_refl 0⟩, trivial⟩
  | error e w' => exact ⟨trivial, Nat.le_refl 0⟩

theorem follows_go {fr' : Frame} (hf : i.falls = true) (h : fr'.At c (n + 1) (i.after σ)) :
    EcmaLite.Keeps (fun _ => True) (fun _ => 0) (pure (Next.go fr') : Run Next) w
      fun nx _ => nx.Follows c n i σ :=
  keeps_pure trivial (.inl ⟨hf, h⟩)

theorem follows_bind {α : Type} {x : Run α} {g : α → Frame} (hf : i.falls = true)
    (h : ∀ a, (g a).At c (n + 1) (i.after σ)) :
    EcmaLite.Keeps (fun _ => True) (fun _ => 0) (x >>= fun a => pure (Next.go (g a))) w
      fun nx _ => nx.Follows c n i σ :=
  keeps_bind (keeps_any x) fun a _ _ _ => follows_go hf (h a)

/-- One instruction leaves a frame of the same code, at the next instruction or at the jump's
target, with its stack shaped as the instruction makes of the shape it found, provided the
instruction finds what it takes there. -/
theorem step_follows {k : Nat} (hfr : fr.At c (n + 1) σ) (hfits : i.Fits σ) :
    EcmaLite.Keeps (fun _ => True) (fun _ => 0) (step k fr i) w
      fun nx _ => nx.Follows c n i σ := by
  cases k with
  | zero =>
    simp only [step]
    exact keeps_throw trivial
  | succ k =>
  cases i
  all_goals simp only [step, step.arith, step.test]
  case pushConst => exact follows_go rfl (hfr.push_any)
  case pushUndefined => exact follows_go rfl (hfr.push_any)
  case pushNull => exact follows_go rfl (hfr.push_any)
  case pushTrue => exact follows_go rfl (hfr.push_any)
  case pushFalse => exact follows_go rfl (hfr.push_any)
  case add => exact follows_bind rfl fun _ => hfr.pop2_snd.push_any
  case sub | mul | div | mod | strictEq | strictNe | looseEq | looseNe | lt | le | gt | ge =>
    exact follows_go rfl (hfr.pop2_snd.push_any)
  case negate | toNumber | not | void => exact follows_go rfl (hfr.pop_snd.push_any)
  case instanceOf | hasIn => exact follows_bind rfl fun _ => hfr.pop2_snd.push_any
  case typeOf => exact keeps_get_bind (follows_go rfl (hfr.pop_snd.push_any))
  case typeOfVar | getVar | makeClosure => exact follows_bind rfl fun _ => hfr.push_any
  case setVar => exact follows_bind rfl fun _ => hfr.forget hfits.1
  case declareVar => exact follows_bind rfl fun _ => hfr
  case bindFunction => exact follows_bind rfl fun _ => hfr.pop_snd
  case jump t => exact keeps_pure trivial (.inr ⟨t, rfl, hfr.goto⟩)
  case jumpIfFalse t =>
    refine keeps_pure trivial ?_
    split
    · exact .inl ⟨rfl, hfr.pop_snd⟩
    · exact .inr ⟨t, rfl, hfr.pop_snd.goto⟩
  case jumpIfTrue t =>
    refine keeps_pure trivial ?_
    split
    · exact .inr ⟨t, rfl, hfr.pop_snd.goto⟩
    · exact .inl ⟨rfl, hfr.pop_snd⟩
  case pop => exact follows_go rfl hfr.pop_snd
  case dup => exact follows_go rfl ((hfr.forget hfits.1).push_any)
  case dup2 =>
    exact follows_go rfl ((((hfr.pop2_snd.push_any).push_any).push_any).push_any)
  case getProp | updateProp => exact follows_bind rfl fun _ => hfr.pop_snd.push_any
  case setProp | getElem => exact follows_bind rfl fun _ => hfr.pop2_snd.push_any
  case setElem => exact keeps_get_bind (follows_bind rfl fun _ => hfr.pop_pop2.push_any)
  case deleteProp => exact follows_bind rfl fun _ => hfr.pop_snd.push_any
  case deleteElem | updateElem =>
    exact keeps_get_bind (follows_bind rfl fun _ => hfr.pop2_snd.push_any)
  case newObject => exact follows_bind rfl fun id => hfr.push ⟨id, rfl⟩
  case initProp k =>
    -- the plan knows the value under the entry's value for an object: the store happens
    obtain ⟨id, hid⟩ := hfr.stack.obj_second (hfits.2 k rfl)
    rw [Frame.pop2_fst_of_second hid]
    exact follows_bind rfl fun _ => hfr.pop2_snd.push ⟨id, rfl⟩
  case newArray => exact follows_bind rfl fun _ => hfr.popN_snd.push_any
  case call =>
    exact keeps_bind (keeps_any _) fun _ _ _ _ =>
      keeps_get_bind (follows_bind rfl fun _ => hfr.popN_pop.push_any)
  case construct =>
    exact keeps_bind (keeps_any _) fun _ _ _ _ => follows_bind rfl fun _ => hfr.popN_pop.push_any
  case callMethod =>
    exact keeps_bind (keeps_any _) fun _ _ _ _ => follows_bind rfl fun _ => hfr.popN_pop2.push_any
  case this => exact follows_go rfl (hfr.push_any)
  case updateVar =>
    exact keeps_bind (keeps_any _) fun _ _ _ _ => follows_bind rfl fun _ => hfr.push_any
  case setCompletion => exact follows_go rfl hfr.pop_snd.with_completion
  case ret | halt => exact keeps_pure trivial trivial

end Run

/-! ## Runs -/

theorem Code.WellFormed.toLocal {b : Bool} {c : Code} (h : c.WellFormed b) : c.Local b := by
  cases h with
  | intro hlocal _ => exact hlocal

/-- The frames a run of code `c` passes through: it starts at the first instruction with an
empty stack, and each instruction, whatever the world and whatever its calls return, leaves the
next frame. -/
inductive Code.Visits (c : Code) : Frame → Prop
  | start (s : ScopeId) (this : Value) (global : ObjId) :
      c.Visits ⟨c, 0, [], s, this, .undefined, global⟩
  | next {fr fr' : Frame} {i : Instr} {k : Nat} {w w' : World} : c.Visits fr →
      fr.code.instrs[fr.ip]? = some i →
      step k { fr with ip := fr.ip + 1 } i w = .ok (.go fr') w' → c.Visits fr'

namespace Code.StackPlan

variable {c : Code} {a : Nat → StackShape} {fr fr' : Frame} {n k : Nat} {i : Instr} {w w' : World}

/-- The step lemma: an instruction run from the shape its plan gives leaves a frame whose stack
has the shape the plan gives where it goes on. -/
theorem step_at (hp : c.StackPlan a) (hfr : fr.At c n (a n)) (hi : c.instrs[n]? = some i)
    (h : EcmaLite.step k { fr with ip := n + 1 } i w = .ok (.go fr') w') :
    fr'.At c fr'.ip (a fr'.ip) := by
  have hplan := hp.step n i hi
  have hk := Run.step_follows (k := k) (w := w) (i := i)
    (⟨hfr.code, rfl, hfr.stack⟩ : Frame.At c (n + 1) (a n) { fr with ip := n + 1 }) hplan.fits
  have hnext : Next.Follows c n i (a n) (.go fr') := by
    unfold EcmaLite.Keeps at hk
    rw [h] at hk
    exact hk.2
  rcases hnext with ⟨hf, hat⟩ | ⟨t, ht, hat⟩
  · rw [hat.ip]
    exact ⟨hat.code, hat.ip, hat.stack.weaker (hplan.next hf)⟩
  · rw [hat.ip]
    exact ⟨hat.code, hat.ip, hat.stack.weaker (hplan.jump t ht)⟩

/-- The run lemma: every frame a run of `c` passes through has the shape the plan gives. -/
theorem at_of_visits (hp : c.StackPlan a) (h : c.Visits fr) : fr.At c fr.ip (a fr.ip) := by
  induction h with
  | start s this global =>
    refine ⟨rfl, rfl, ?_⟩
    rw [hp.start]
    exact List.Forall₂.nil
  | next _ hi hstep ih =>
    rw [ih.code] at hi
    exact hp.step_at ih hi hstep

/-- No instruction a run of `c` reaches finds too few values, and `initProp` always finds the
object it stores into. -/
theorem fits_of_visits (hp : c.StackPlan a) (h : c.Visits fr)
    (hi : fr.code.instrs[fr.ip]? = some i) :
    i.pops ≤ fr.stack.length ∧
      ∀ k, i = .initProp k → ∃ id, fr.stack[1]? = some (.obj id) := by
  have hat := hp.at_of_visits h
  rw [hat.code] at hi
  have hfits := (hp.step _ _ hi).fits
  refine ⟨?_, fun k hk => hat.stack.obj_second (hfits.2 k hk)⟩
  rw [hat.stack.length]
  exact hfits.1

end Code.StackPlan

/-- Compiled code is well formed: every table index in range, every jump inside the code, a
stack-height assignment that agrees along every edge, the right last instructions, and the same
for every function literal inside. Every statement's code runs from an empty stack to an empty
stack. So no run of well formed code takes a value from an empty stack, and `initProp` always
finds its object: the machine's fallbacks for a stack that runs dry never come into play. -/
theorem compiled_code_well_formed :
    (∀ (p : Program) (c : Code), p.compile = .ok c →
      c.WellFormed true ∧ ∃ h, c.Heights h) ∧
    (∀ st : Stmt, Emits (Emit.stmt st) (fun _ => []) fun _ => []) ∧
    (∀ (b : Bool) (c : Code), c.WellFormed b → ∀ fr, c.Visits fr → ∀ i,
      fr.code.instrs[fr.ip]? = some i →
      i.pops ≤ fr.stack.length ∧
        ∀ k, i = .initProp k → ∃ id, fr.stack[1]? = some (.obj id)) := by
  refine ⟨fun p c hc => ?_, fun st E hE => stmt_emits st E hE, fun b c hc fr hv i hi => ?_⟩
  · have hwf := Program.compile_wellFormed hc
    obtain ⟨a, hp⟩ := hwf.toLocal.plan
    exact ⟨hwf, _, hp.heights⟩
  · obtain ⟨a, hp⟩ := hc.toLocal.plan
    exact hp.fits_of_visits hv hi

/-- A script with a function declaration, a loop, a return and a call reads and compiles. -/
theorem loop_function_script_compiles :
    ∃ p c, Program.parse "function f(n) { while (n) n = n - 1; return n; } f(2);" = .ok p ∧
      p.compile = .ok c := by
  have hok : ((Program.parse "function f(n) { while (n) n = n - 1; return n; } f(2);").toOption.bind
      fun p => p.compile.toOption).isSome = true := by
    decide +kernel
  cases hp : Program.parse "function f(n) { while (n) n = n - 1; return n; } f(2);" with
  | error _ =>
    rw [hp] at hok
    cases hok
  | ok p =>
    cases hc : p.compile with
    | error _ =>
      rw [hp] at hok
      simp [Except.toOption, hc] at hok
    | ok c => exact ⟨p, c, rfl, hc⟩

/-- The code of a script with a function, a loop and a call is well formed, has a stack plan, and
every instruction a run of it reaches finds the operands it pops. -/
theorem loop_function_script_code_fits_its_plan :
    ∃ p c, Program.parse "function f(n) { while (n) n = n - 1; return n; } f(2);" = .ok p ∧
      p.compile = .ok c ∧ (c.WellFormed true ∧ ∃ h, c.Heights h) ∧
      ∀ fr, c.Visits fr → ∀ i, fr.code.instrs[fr.ip]? = some i → i.pops ≤ fr.stack.length := by
  obtain ⟨p, c, hp, hc⟩ := loop_function_script_compiles
  have hwf := compiled_code_well_formed.1 p c hc
  exact ⟨p, c, hp, hc, hwf, fun fr hv i hi =>
    (compiled_code_well_formed.2.2 true c hwf.1 fr hv i hi).1⟩

end EcmaLite
