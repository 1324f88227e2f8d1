import EcmaLite.Proofs.ProtoChain
import EcmaLite.Proofs.Keys
import EcmaLite.Machine.Run

/-!
# Lookups along the prototype chain

`World.findUp` visits an object and then its prototypes, and follows at most `remaining` links
before it gives up with `Fault.chainTooLong`. Read against the chain `protoAt`, it gives what
the nearest object that answers gives, when that object is at most `remaining` links up
(`findUp_of_answersAt`); it answers nothing when the chain ends within that many links with no
object answering (`findUp_of_ends`); and it faults when no object among the first
`remaining + 1` answers and the chain goes on past them (`findUp_of_long`).

Reading and testing a property are two such walks, with `Obj.getOwn` and `Obj.hasOwn`, and the
two agree object by object (`Obj.hasOwn_eq_isSome_getOwn`), so they stop at the same object
(`lookups_follow_chain`). An array's direct read of a present element is that walk cut short
at its first object (`getElem_agrees_with_key_lookup`).

`instanceof` walks by `World.chainReaches` instead, which compares an object with its target
before it counts the link to it: it sees the object `remaining + 1` links up, one link further
than `findUp` does (`instanceOf_outcomes`).
-/

namespace EcmaLite

namespace Obj

/-- An object has an own property exactly when it has an own value for it; arrays agree on
`length`, on holes and on indices past their end. -/
theorem hasOwn_eq_isSome_getOwn (o : Obj) (key : String) :
    o.hasOwn key = (o.getOwn key).isSome := by
  obtain ⟨kind, cls, props, proto⟩ := o
  cases kind with
  | array es =>
    simp only [hasOwn, getOwn]
    by_cases hlen : key = lengthKey
    · simp [hlen]
    · simp only [hlen, if_false]
      cases arrayIndex? key with
      | none => simp [Props.get?_isSome]
      | some i =>
        by_cases hi : i < es.size
        · simp [hi]
        · simp [hi, Props.get?_isSome]
  | ordinary | function _ _ => simp [hasOwn, getOwn, Props.get?_isSome]

end Obj

namespace World

variable {α : Type} {w : World} {visit : Obj → Option α} {id p q : ObjId} {i j m n r : Nat} {a : α}
  {key : String}

/-! ## One step of the walk -/

theorem findUp_of_visit (h : visit (w.obj id) = some a) : w.findUp visit r id = .ok (some a) := by
  unfold findUp
  simp only [h]

theorem findUp_of_proto_none (hv : visit (w.obj id) = none) (hp : (w.obj id).proto = none) :
    w.findUp visit r id = .ok none := by
  unfold findUp
  simp only [hv, hp]

theorem findUp_zero_of_link (hv : visit (w.obj id) = none) (hp : w.Link id p) :
    w.findUp visit 0 id = .error (.chainTooLong w.limits.maxChain) := by
  unfold findUp
  simp only [hv, show (w.obj id).proto = some p from hp]

theorem findUp_succ_of_link (hv : visit (w.obj id) = none) (hp : w.Link id p) :
    w.findUp visit (r + 1) id = w.findUp visit r p := by
  conv => lhs; unfold findUp
  simp only [hv, show (w.obj id).proto = some p from hp]

theorem proto_eq_none_of_protoAt_one (h : w.protoAt id 1 = none) : (w.obj id).proto = none := by
  cases hp : (w.obj id).proto with
  | none => rfl
  | some p => rw [protoAt_succ_of_link hp] at h; cases h

theorem link_of_protoAt_succ (h : (w.protoAt id (j + 1)).isSome) : ∃ p, w.Link id p := by
  cases hp : (w.obj id).proto with
  | none => rw [protoAt_succ_of_proto_none hp] at h; cases h
  | some p => exact ⟨p, hp⟩

/-! ## The walk against the chain -/

/-- No object among the first `n + 1` of the chain from `id` answers `visit`. -/
def Misses (w : World) (visit : Obj → Option α) (id : ObjId) (n : Nat) : Prop :=
  ∀ i ≤ n, ∀ q, w.protoAt id i = some q → visit (w.obj q) = none

/-- The object `j` links up the chain from `id` is the nearest that answers `visit`, with `a`. -/
def AnswersAt (w : World) (visit : Obj → Option α) (id : ObjId) (j : Nat) (a : α) : Prop :=
  ∃ q, w.protoAt id j = some q ∧ visit (w.obj q) = some a ∧
    ∀ i < j, ∀ q', w.protoAt id i = some q' → visit (w.obj q') = none

theorem Misses.self (h : w.Misses visit id m) : visit (w.obj id) = none :=
  h 0 (Nat.zero_le m) id rfl

/-- Past an object that does not answer, the chain from it misses as its prototype's does. -/
theorem Misses.of_link (h : w.Misses visit id (m + 1)) (hp : w.Link id p) :
    w.Misses visit p m := by
  intro i hi q hq
  exact h (i + 1) (by omega) q (by rwa [protoAt_succ_of_link hp])

theorem AnswersAt.self_none (h : w.AnswersAt visit id (j + 1) a) : visit (w.obj id) = none := by
  obtain ⟨_, _, _, hbefore⟩ := h
  exact hbefore 0 (Nat.zero_lt_succ j) id rfl

theorem AnswersAt.of_link (h : w.AnswersAt visit id (j + 1) a) (hp : w.Link id p) :
    w.AnswersAt visit p j a := by
  obtain ⟨q, hq, hv, hbefore⟩ := h
  refine ⟨q, by rwa [protoAt_succ_of_link hp] at hq, hv, fun i hi q' hq' => ?_⟩
  exact hbefore (i + 1) (by omega) q' (by rwa [protoAt_succ_of_link hp])

/-- The walk gives the answer of the nearest object that answers, when that object is within
its reach. -/
theorem findUp_of_answersAt (h : w.AnswersAt visit id j a) (hj : j ≤ r) :
    w.findUp visit r id = .ok (some a) := by
  induction j generalizing id r with
  | zero =>
    obtain ⟨q, hq, hv, -⟩ := h
    cases hq
    exact findUp_of_visit hv
  | succ j ih =>
    have hsome : (w.protoAt id (j + 1)).isSome := by
      obtain ⟨q, hq, -, -⟩ := h
      rw [hq]
      rfl
    obtain ⟨p, hp⟩ := link_of_protoAt_succ hsome
    obtain ⟨r, rfl⟩ : ∃ r', r = r' + 1 := ⟨r - 1, by omega⟩
    rw [findUp_succ_of_link h.self_none hp]
    exact ih (h.of_link hp) (by omega)

/-- The walk answers nothing when the chain ends within its reach and no object answers. -/
theorem findUp_of_ends (hm : w.Misses visit id m) (hend : w.protoAt id (m + 1) = none)
    (hmr : m ≤ r) : w.findUp visit r id = .ok none := by
  induction m generalizing id r with
  | zero => exact findUp_of_proto_none hm.self (proto_eq_none_of_protoAt_one hend)
  | succ m ih =>
    cases hp : (w.obj id).proto with
    | none => exact findUp_of_proto_none hm.self hp
    | some p =>
      obtain ⟨r, rfl⟩ : ∃ r', r = r' + 1 := ⟨r - 1, by omega⟩
      rw [findUp_succ_of_link hm.self hp]
      exact ih (hm.of_link hp) (by rwa [protoAt_succ_of_link hp] at hend) (by omega)

/-- The walk faults when no object within its reach answers and the chain goes on past them. -/
theorem findUp_of_long (hm : w.Misses visit id r) (hlong : (w.protoAt id (r + 1)).isSome) :
    w.findUp visit r id = .error (.chainTooLong w.limits.maxChain) := by
  induction r generalizing id with
  | zero =>
    obtain ⟨p, hp⟩ := link_of_protoAt_succ hlong
    exact findUp_zero_of_link hm.self hp
  | succ r ih =>
    obtain ⟨p, hp⟩ := link_of_protoAt_succ hlong
    rw [findUp_succ_of_link hm.self hp]
    exact ih (hm.of_link hp) (by rwa [protoAt_succ_of_link hp] at hlong)

/-! ## Reading and testing a property -/

/-- The object `j` links up the chain from `id` is `p`, the nearest that has own property
`key`. -/
def NearestOwner (w : World) (id : ObjId) (key : String) (j : Nat) (p : ObjId) : Prop :=
  w.protoAt id j = some p ∧ (w.obj p).hasOwn key = true ∧
    ∀ i < j, ∀ q, w.protoAt id i = some q → (w.obj q).hasOwn key = false

/-- The chain from `id` ends at the object `m` links up. -/
def ChainEndsAt (w : World) (id : ObjId) (m : Nat) : Prop :=
  (w.protoAt id m).isSome ∧ w.protoAt id (m + 1) = none

/-- The visit of `hasProp`. -/
abbrev ownerVisit (key : String) (o : Obj) : Option Unit := if o.hasOwn key then some () else none

theorem ownerVisit_eq_none {o : Obj} {key : String} :
    ownerVisit key o = none ↔ o.hasOwn key = false := by
  simp [ownerVisit]

theorem getOwn_eq_none {o : Obj} {key : String} : o.getOwn key = none ↔ o.hasOwn key = false := by
  rw [Obj.hasOwn_eq_isSome_getOwn, Option.isSome_eq_false_iff, Option.isNone_iff_eq_none]

/-- The nearest owner is where both walks stop: `getOwn` gives its value there. -/
theorem NearestOwner.answersAt (h : w.NearestOwner id key j p) :
    ∃ v, (w.obj p).getOwn key = some v ∧ w.AnswersAt (·.getOwn key) id j v ∧
      w.AnswersAt (ownerVisit key) id j () := by
  obtain ⟨hp, hown, hbefore⟩ := h
  obtain ⟨v, hv⟩ := Option.isSome_iff_exists.mp
    (by rw [← Obj.hasOwn_eq_isSome_getOwn]; exact hown)
  refine ⟨v, hv, ⟨p, hp, hv, fun i hi q hq => getOwn_eq_none.mpr (hbefore i hi q hq)⟩,
    ⟨p, hp, by simp [ownerVisit, hown], fun i hi q hq => ?_⟩⟩
  exact ownerVisit_eq_none.mpr (hbefore i hi q hq)

/-- An object of the chain that has the property makes a nearest owner at or below it. -/
theorem exists_nearestOwner (hq : w.protoAt id i = some q) (hown : (w.obj q).hasOwn key = true) :
    ∃ j ≤ i, ∃ p, w.NearestOwner id key j p := by
  classical
  have hex : ∃ n, ∃ q, w.protoAt id n = some q ∧ (w.obj q).hasOwn key = true := ⟨i, q, hq, hown⟩
  obtain ⟨p, hp, hpown⟩ := Nat.find_spec hex
  refine ⟨Nat.find hex, Nat.find_min' hex ⟨q, hq, hown⟩, p, hp, hpown, fun n hn q' hq' => ?_⟩
  have hmin := Nat.find_min hex hn
  simp only [not_exists, not_and, Bool.not_eq_true] at hmin
  exact hmin q' hq'

/-- With no owner within `n` links, both walks miss the first `n + 1` objects. -/
theorem misses_of_no_owner_within (h : ¬∃ j p, w.NearestOwner id key j p ∧ j ≤ n) :
    w.Misses (·.getOwn key) id n ∧ w.Misses (ownerVisit key) id n := by
  have hnone : ∀ i ≤ n, ∀ q, w.protoAt id i = some q → (w.obj q).hasOwn key = false := by
    intro i hi q hq
    by_contra hown
    obtain ⟨j, hj, p, hjp⟩ := exists_nearestOwner hq (by simpa using hown)
    exact h ⟨j, p, hjp, by omega⟩
  exact ⟨fun i hi q hq => getOwn_eq_none.mpr (hnone i hi q hq),
    fun i hi q hq => ownerVisit_eq_none.mpr (hnone i hi q hq)⟩

/-- With no owner on a chain, both walks miss everywhere on it. -/
theorem misses_of_no_owner (h : ¬∃ j p, w.NearestOwner id key j p) (n : Nat) :
    w.Misses (·.getOwn key) id n ∧ w.Misses (ownerVisit key) id n :=
  misses_of_no_owner_within fun ⟨j, p, hjp, _⟩ => h ⟨j, p, hjp⟩

/-- An object of the chain stands no further up than where the chain ends. -/
theorem le_of_chainEndsAt (hend : w.ChainEndsAt id m) (hq : w.protoAt id j = some q) : j ≤ m := by
  by_contra hlt
  rw [protoAt_eq_none_of_le hend.2 (by omega)] at hq
  cases hq

/-- A chain that has ended within `n + 1` links has a last object within `n`. -/
theorem exists_chainEndsAt (h : w.protoAt id (n + 1) = none) : ∃ m ≤ n, w.ChainEndsAt id m := by
  induction n with
  | zero => exact ⟨0, le_refl 0, rfl, h⟩
  | succ n ih =>
    by_cases hn : w.protoAt id (n + 1) = none
    · obtain ⟨m, hm, hend⟩ := ih hn
      exact ⟨m, by omega, hend⟩
    · exact ⟨n + 1, le_refl _, Option.isSome_iff_ne_none.mpr hn, h⟩

/-- Reading and testing a property follow the prototype chain to its nearest owner within the
limit of links; they find nothing when the chain ends first, and otherwise both fault with the
chain-too-long error. `has_own_property` and `get_own_property` agree on every object. -/
theorem lookups_follow_chain (w : World) (id : ObjId) (key : String) :
    (∀ o : Obj, o.hasOwn key = (o.getOwn key).isSome) ∧
    (∀ j p, w.NearestOwner id key j p → j ≤ w.limits.maxChain →
      ∃ v, (w.obj p).getOwn key = some v ∧ w.getProp id key = .ok v ∧
        w.hasProp id key = .ok true) ∧
    (∀ m, w.ChainEndsAt id m → m ≤ w.limits.maxChain → (¬∃ j p, w.NearestOwner id key j p) →
      w.getProp id key = .ok .undefined ∧ w.hasProp id key = .ok false) ∧
    ((¬∃ j p, w.NearestOwner id key j p ∧ j ≤ w.limits.maxChain) →
      (¬∃ m, w.ChainEndsAt id m ∧ m ≤ w.limits.maxChain ∧ ¬∃ j p, w.NearestOwner id key j p) →
      w.getProp id key = .error (.chainTooLong w.limits.maxChain) ∧
      w.hasProp id key = .error (.chainTooLong w.limits.maxChain) ∧
      (Fault.chainTooLong w.limits.maxChain).kind = .internalError ∧
      (Fault.chainTooLong w.limits.maxChain).message =
        "Prototype chain longer than " ++ toString w.limits.maxChain ++ " links") := by
  refine ⟨fun o => o.hasOwn_eq_isSome_getOwn key, ?found, ?ends, ?long⟩
  case found =>
    intro j p hjp hj
    obtain ⟨v, hv, hget, hhas⟩ := hjp.answersAt
    refine ⟨v, hv, ?_, ?_⟩
    · simp only [getProp, findUp_of_answersAt hget hj]
      rfl
    · simp only [hasProp, findUp_of_answersAt hhas hj]
      rfl
  case ends =>
    intro m hend hm hno
    obtain ⟨hget, hhas⟩ := misses_of_no_owner hno m
    constructor
    · simp only [getProp, findUp_of_ends hget hend.2 hm]
      rfl
    · simp only [hasProp, findUp_of_ends hhas hend.2 hm]
      rfl
  case long =>
    intro hfar hnoend
    obtain ⟨hget, hhas⟩ := misses_of_no_owner_within hfar
    -- the chain cannot end within the limit: its owner would then be within it too
    have hlong : (w.protoAt id (w.limits.maxChain + 1)).isSome := by
      by_contra hnone
      obtain ⟨m, hm, hend⟩ := exists_chainEndsAt (Option.not_isSome_iff_eq_none.mp hnone)
      refine hnoend ⟨m, hend, hm, fun ⟨j, p, hjp⟩ => hfar ⟨j, p, hjp, ?_⟩⟩
      exact (le_of_chainEndsAt hend hjp.1).trans hm
    refine ⟨?_, ?_, rfl, rfl⟩
    · simp only [getProp, findUp_of_long hget hlong]
      rfl
    · simp only [hasProp, findUp_of_long hhas hlong]
      rfl

/-! ## Reading an element -/

theorem getProp_of_getOwn {v : Value} (h : (w.obj id).getOwn key = some v) :
    w.getProp id key = .ok v := by
  have hwalk : w.findUp (·.getOwn key) w.limits.maxChain id = .ok (some v) := findUp_of_visit h
  simp only [getProp, hwalk]
  rfl

/-- The text of a non-negative `int` is the decimal of its magnitude. -/
theorem text_int_of_nonneg {i : Int} (hi : 0 ≤ i) : w.text (.num (.int i)) = toString i.toNat := by
  obtain ⟨n, rfl⟩ := Int.eq_ofNat_of_zero_le hi
  rfl

/-- At the decimal key of one of its slots an array's own value is that slot's. -/
theorem getOwn_slot {o : Obj} {es : Array (Option Value)} (hk : o.kind = .array es) {n : Nat}
    (hn : n < es.size) (h64 : n < Nat.pow 2 64) : o.getOwn (toString n) = es[n]?.join := by
  have hidx := arrayIndex?_toString h64
  simp only [Obj.getOwn, hk, if_neg (ne_lengthKey_of_arrayIndex? hidx), hidx, if_pos hn]

/-- Reading element `x` of an object reads the property named by the text of `x`: the direct
read of a present array element gives what the walk from the array gives at its first object.
An `int` index is a signed 64-bit word, as the values of the language hold them. -/
theorem getElem_agrees_with_key_lookup (w : World) (id : ObjId) (x : Value)
    (hword : ∀ i, x = .num (.int i) → i ≤ Number.wordMax) :
    Run.getElem (.obj id) x w = Run.lift (w.getProp id (w.text x)) w := by
  unfold Run.getElem
  rw [Run.get_bind_apply]
  -- only an `int` index of an array can take the direct read
  rcases x with _ | _ | _ | _ | (i | _ | _ | _ | _) | _
  case num.int =>
    cases hk : (w.obj id).kind with
    | array es =>
      simp only [hk]
      by_cases hi : 0 ≤ i
      · cases hv : es[i.toNat]?.join with
        | none => simp only [hi, if_true]
        | some v =>
          simp only [hi, if_true]
          have hn : i.toNat < es.size := by
            by_contra hout
            rw [Array.getElem?_eq_none (by omega)] at hv
            cases hv
          have h64 : i.toNat < Nat.pow 2 64 := by
            have hle := hword i rfl
            have hmax : Number.wordMax < ((Nat.pow 2 64 : Nat) : Int) := by decide
            omega
          have hslot : (w.obj id).getOwn (toString i.toNat) = some v := by
            rw [getOwn_slot hk hn h64, hv]
          rw [text_int_of_nonneg hi, getProp_of_getOwn hslot]
          rfl
      · simp only [hi, if_false]
    | _ => simp only [hk]
  all_goals rfl

/-! ## `instanceof` -/

/-- `target` is one of the first `n` prototypes up the chain from `id`, the object itself not
counted. -/
def ProtoWithin (w : World) (id target : ObjId) (n : Nat) : Prop :=
  ∃ j, 0 < j ∧ j ≤ n ∧ w.protoAt id j = some target

theorem protoWithin_succ_iff (hp : w.Link id p) {target : ObjId} :
    w.ProtoWithin id target (n + 1) ↔ ∃ i ≤ n, w.protoAt p i = some target := by
  constructor
  · rintro ⟨j, hj0, hjn, hj⟩
    obtain ⟨i, rfl⟩ : ∃ i, j = i + 1 := ⟨j - 1, by omega⟩
    exact ⟨i, by omega, by rwa [protoAt_succ_of_link hp] at hj⟩
  · rintro ⟨i, hi, hpi⟩
    exact ⟨i + 1, by omega, by omega, by rwa [protoAt_succ_of_link hp]⟩

theorem not_protoWithin_of_proto_none (hp : (w.obj id).proto = none) {target : ObjId} :
    ¬w.ProtoWithin id target n := by
  rintro ⟨j, hj0, -, hj⟩
  obtain ⟨i, rfl⟩ : ∃ i, j = i + 1 := ⟨j - 1, by omega⟩
  rw [protoAt_succ_of_proto_none hp] at hj
  cases hj

/-- The walk of `instanceof` from object `id`: it answers `true` when the target is among the
first `N + 1` prototypes, where `N` is the limit of links, faults when there are more prototypes
than that and the target is not among them, and answers `false` when the chain ends first. -/
theorem inheritsFrom_cases (w : World) (id target : ObjId) :
    (w.ProtoWithin id target (w.limits.maxChain + 1) ∧ w.inheritsFrom id target = .ok true) ∨
    (¬w.ProtoWithin id target (w.limits.maxChain + 1) ∧
      (w.protoAt id (w.limits.maxChain + 1)).isSome ∧
      w.inheritsFrom id target = .error (.chainTooLong w.limits.maxChain)) ∨
    (¬w.ProtoWithin id target (w.limits.maxChain + 1) ∧
      w.protoAt id (w.limits.maxChain + 1) = none ∧ w.inheritsFrom id target = .ok false) := by
  cases hp : (w.obj id).proto with
  | none =>
    refine .inr (.inr ⟨not_protoWithin_of_proto_none hp, protoAt_succ_of_proto_none hp, ?_⟩)
    simp only [inheritsFrom, hp]
  | some p =>
    have hinherits : w.inheritsFrom id target = w.chainReaches target w.limits.maxChain p := by
      simp only [inheritsFrom, hp]
    rw [protoWithin_succ_iff hp, protoAt_succ_of_link hp, hinherits]
    exact chainReaches_cases target w.limits.maxChain p

/-- `v instanceof F` for a function `F`, once `F.prototype` is read: a primitive is an instance
of nothing, and an object is walked from its prototype. -/
theorem instanceOf_eq {v : Value} {fid target : ObjId} (hcall : (w.obj fid).isCallable = true)
    (hproto : w.getProp fid "prototype" = .ok (.obj target)) :
    Run.instanceOf v (.obj fid) w =
      match v with
      | .obj id => Run.lift (w.inheritsFrom id target) w
      | _ => .ok false w := by
  unfold Run.instanceOf
  rw [Run.get_bind_apply]
  simp only [hcall, Bool.not_true, Bool.false_eq_true, if_false]
  cases v
  case obj id =>
    simp only [hproto]
    rfl
  all_goals rfl

theorem lift_apply_ok {β : Type} {e : Except Fault β} {b : β} (h : e = .ok b) :
    Run.lift e w = .ok b w := by
  rw [h]
  rfl

theorem lift_apply_error {β : Type} {e : Except Fault β} {f : Fault} (h : e = .error f) :
    Run.lift e w = .error f w := by
  rw [h]
  rfl

/-- `v instanceof F`, for a function `F` whose `prototype` is the object `target`, with `N` the
limit of links: it is `true` exactly when `target` is among the first `N + 1` prototypes of `v`,
one link further than property lookups reach; `false` when `v` is no object or its chain ends
within `N` links without meeting `target`; and the chain-too-long fault otherwise. -/
theorem instanceOf_outcomes (w : World) (v : Value) (fid target : ObjId)
    (hcall : (w.obj fid).isCallable = true)
    (hproto : w.getProp fid "prototype" = .ok (.obj target)) :
    (Run.instanceOf v (.obj fid) w = .ok true w ↔
      ∃ id, v = .obj id ∧ w.ProtoWithin id target (w.limits.maxChain + 1)) ∧
    (Run.instanceOf v (.obj fid) w = .ok false w ↔
      (∀ id, v ≠ .obj id) ∨
      ∃ id, v = .obj id ∧ ¬w.ProtoWithin id target (w.limits.maxChain + 1) ∧
        w.protoAt id (w.limits.maxChain + 1) = none) ∧
    (Run.instanceOf v (.obj fid) w = .error (.chainTooLong w.limits.maxChain) w ↔
      ∃ id, v = .obj id ∧ ¬w.ProtoWithin id target (w.limits.maxChain + 1) ∧
        (w.protoAt id (w.limits.maxChain + 1)).isSome) := by
  rw [instanceOf_eq hcall hproto]
  cases v
  case obj id =>
    rcases inheritsFrom_cases w id target with ⟨hin, h⟩ | ⟨hin, hlong, h⟩ | ⟨hin, hend, h⟩
    · simp [lift_apply_ok h, hin]
    · simp [lift_apply_error h, hin, hlong, Option.ne_none_iff_isSome.mpr hlong]
    · simp [lift_apply_ok h, hin, hend]
  all_goals simp

end World

/-- A small heap with a limit of zero links: a function `F` (object 0) whose `prototype` is
object 1, object 2 made by `new F`, and an array (object 3) holding `10` and a hole. -/
def World.smallHeap : World where
  objs := #[⟨.function "F" (.native .eval), .function, [("prototype", .obj 1)], none⟩,
    Obj.plain .object none, Obj.plain .object (some 1),
    ⟨.array #[some (.num (.int 10)), none], .array, [], none⟩]
  scopes := #[]
  printed := #[]
  protos := ⟨1, 1, 1⟩
  limits := ⟨128, 0⟩
  ctx := default

/-- With a limit of zero links, `(new F) instanceof F` is `true`: the walk of `instanceof` meets
`F.prototype` one link up, where a property lookup would already have faulted. -/
theorem instanceof_sees_one_link_past_limit :
    World.smallHeap.limits.maxChain = 0 ∧ World.smallHeap.protoAt 2 1 = some 1 ∧
    Run.instanceOf (.obj 2) (.obj 0) World.smallHeap = .ok true World.smallHeap :=
  ⟨rfl, rfl, (World.instanceOf_outcomes World.smallHeap (.obj 2) 0 1 rfl
    (World.getProp_of_getOwn (by simp [World.smallHeap, World.obj, Obj.getOwn, Props.get?]))).1.mpr
    ⟨2, rfl, 1, Nat.one_pos, Nat.le_refl 1, rfl⟩⟩

/-- Element `0` of the array of `smallHeap`, read directly, is the property `"0"`. -/
theorem array_element_read_is_key_lookup :
    (∀ i, Value.num (.int 0) = .num (.int i) → i ≤ Number.wordMax) ∧
    Run.getElem (.obj 3) (.num (.int 0)) World.smallHeap =
      Run.lift (World.smallHeap.getProp 3 (World.smallHeap.text (.num (.int 0)))) World.smallHeap :=
  have hword : ∀ i, Value.num (.int 0) = .num (.int i) → i ≤ Number.wordMax := by
    intro i h
    cases h
    decide
  ⟨hword, World.getElem_agrees_with_key_lookup World.smallHeap 3 (.num (.int 0)) hword⟩

/-- On `smallHeap`, the function `F` owns its `prototype`: the lookup stops there, with no link
followed, and `getProp` and `hasProp` answer from it. -/
theorem function_prototype_is_found_on_small_heap :
    World.smallHeap.NearestOwner 0 "prototype" 0 0 ∧
    (World.smallHeap.obj 0).getOwn "prototype" = some (.obj 1) ∧
    World.smallHeap.getProp 0 "prototype" = .ok (.obj 1) ∧
    World.smallHeap.hasProp 0 "prototype" = .ok true := by
  have hnear : World.smallHeap.NearestOwner 0 "prototype" 0 0 :=
    ⟨rfl, by decide, fun i hi => absurd hi (Nat.not_lt_zero i)⟩
  obtain ⟨v, hv, hget, hhas⟩ :=
    (World.lookups_follow_chain World.smallHeap 0 "prototype").2.1 0 0 hnear (Nat.le_refl 0)
  have hv1 : v = .obj 1 := by
    have : (World.smallHeap.obj 0).getOwn "prototype" = some (.obj 1) := rfl
    rw [this] at hv
    exact (Option.some.inj hv).symm
  subst hv1
  exact ⟨hnear, hv, hget, hhas⟩

end EcmaLite
