import EcmaLite.Proofs.NumberForm

/-!
# Loose equality

`==` is written as an ordered list of arms: `undefined` and `null` equal each other, a number and
a string compare as numbers, a boolean on either side is replaced by its number and `==` asked
again, and everything else is `===`. `Value.looseEq` makes both replacements first and then asks
the arms once (`looseEqCore`); `looseEqUnfolding` follows the arms as written, with the depth of
the replacements bounded, and at depth two it always answers, with the answer of `looseEq`
(`looseEqUnfolding_of_two_le`): a boolean is replaced at most once on each side.

`==` is symmetric: the arms come in mirrored pairs, and the comparisons they end in are
symmetric, IEEE equality of doubles included (`Double.beq_comm`, `Number.same_comm`,
`Value.strictEq_comm`). It contains `===` (`looseEq_of_strictEq`): two values of one type reach
`===` or, for booleans, compare their equal numbers.
-/

namespace EcmaLite

open Float.Model

theorem Double.beq_comm (a b : Float) : (a == b) = (b == a) := by
  rw [Bool.eq_iff_iff, beq_iff, beq_iff, compare_eq_iff, compare_eq_iff]
  constructor
  · rintro (⟨s, t, ha, hb⟩ | ⟨hab, hnan⟩)
    · exact .inl ⟨t, s, hb, ha⟩
    · exact .inr ⟨hab.symm, hab ▸ hnan⟩
  · rintro (⟨s, t, hb, ha⟩ | ⟨hba, hnan⟩)
    · exact .inl ⟨t, s, ha, hb⟩
    · exact .inr ⟨hba.symm, hba ▸ hnan⟩

namespace Number

/-- Numeric equality is symmetric: NaN on either side fails, two `int`s compare exactly, and
IEEE equality of the doubles is symmetric. -/
theorem same_comm (a b : Number) : same a b = same b a := by
  cases a <;> cases b <;> simp only [same, Double.beq_comm, Bool.beq_comm]

end Number

namespace Value

theorem strictEq_comm (a b : Value) : strictEq a b = strictEq b a := by
  cases a <;> cases b <;> simp only [strictEq, Number.same_comm, BEq.comm]

theorem looseEqCore_comm (a b : Value) : looseEqCore a b = looseEqCore b a := by
  cases a <;> cases b <;> simp only [looseEqCore, strictEq_comm, Number.same_comm]

/-- `==` is symmetric. -/
theorem looseEq_comm (a b : Value) : looseEq a b = looseEq b a :=
  looseEqCore_comm _ _

/-- Whether a value is a boolean, the one kind `==` replaces before comparing. -/
def isBool : Value → Bool
  | .bool _ => true
  | _ => false

@[simp] theorem boolAsNumber_of_not_isBool {v : Value} (h : v.isBool = false) :
    v.boolAsNumber = v := by
  cases v <;> simp_all [isBool, boolAsNumber]

@[simp] theorem isBool_boolAsNumber (v : Value) : v.boolAsNumber.isBool = false := by
  cases v <;> rfl

/-- `==` contains `===`: values of one type other than booleans reach `===` itself, and two
equal booleans compare their equal numbers. -/
theorem looseEq_of_strictEq {a b : Value} (h : strictEq a b = true) : looseEq a b = true := by
  cases a <;> cases b <;> simp_all [strictEq, looseEq, looseEqCore, boolAsNumber, Number.same]

/-! ## The arms as written -/

/-- `==` as its arms are written: `undefined` and `null` equal each other, a number and a string
compare as numbers, a boolean operand (the left one first) is replaced by its number and `==`
asked again, and everything else is `===`. At most `depth` replacements are made; `none` when
another one would be needed. -/
def looseEqUnfolding : Nat → Value → Value → Option Bool
  | _, .undefined, .null | _, .null, .undefined => some true
  | _, .num x, b@(.str _) => some (Number.same x b.toNumber)
  | _, a@(.str _), .num y => some (Number.same a.toNumber y)
  | 0, .bool _, _ | 0, _, .bool _ => none
  | d + 1, a@(.bool _), b => looseEqUnfolding d (.num a.toNumber) b
  | d + 1, a, b@(.bool _) => looseEqUnfolding d a (.num b.toNumber)
  | _, a, b => some (strictEq a b)

/-- Without booleans the arms answer at once, as `looseEqCore` does. -/
theorem looseEqUnfolding_of_not_isBool (d : Nat) {a b : Value} (ha : a.isBool = false)
    (hb : b.isBool = false) : looseEqUnfolding d a b = some (looseEqCore a b) := by
  cases d <;> cases a <;> cases b <;> simp_all [isBool, looseEqUnfolding, looseEqCore]

/-- A boolean on the left is replaced by its number, one level down. -/
theorem looseEqUnfolding_bool_left (d : Nat) (x : Bool) (b : Value) :
    looseEqUnfolding (d + 1) (.bool x) b = looseEqUnfolding d (Value.bool x).boolAsNumber b := by
  cases b <;> rfl

/-- A boolean on the right of a non-boolean is replaced by its number, one level down. -/
theorem looseEqUnfolding_bool_right (d : Nat) {a : Value} (ha : a.isBool = false) (y : Bool) :
    looseEqUnfolding (d + 1) a (.bool y) = looseEqUnfolding d a (Value.bool y).boolAsNumber := by
  cases a <;> simp_all [isBool] <;> rfl

/-- The arms of `==` answer within two replacements, with the answer of `looseEq`: a boolean on
the left is replaced first, then one on the right, and the rest never replaces again. -/
theorem looseEqUnfolding_of_two_le {d : Nat} (hd : 2 ≤ d) (a b : Value) :
    looseEqUnfolding d a b = some (looseEq a b) := by
  obtain ⟨d, rfl⟩ : ∃ k, d = k + 2 := ⟨d - 2, by omega⟩
  -- the replaced operands are no booleans: what is left is the core comparison
  have core : ∀ k, looseEqUnfolding k a.boolAsNumber b.boolAsNumber = some (looseEq a b) :=
    fun k => looseEqUnfolding_of_not_isBool k (isBool_boolAsNumber a) (isBool_boolAsNumber b)
  cases ha : a.isBool <;> cases hb : b.isBool
  · rw [boolAsNumber_of_not_isBool ha, boolAsNumber_of_not_isBool hb] at core
    exact core _
  · obtain ⟨y, rfl⟩ : ∃ y, b = .bool y := by cases b <;> simp_all [isBool]
    rw [looseEqUnfolding_bool_right _ ha, ← core (d + 1), boolAsNumber_of_not_isBool ha]
  · obtain ⟨x, rfl⟩ : ∃ x, a = .bool x := by cases a <;> simp_all [isBool]
    rw [looseEqUnfolding_bool_left, ← core (d + 1), boolAsNumber_of_not_isBool hb]
  · obtain ⟨x, rfl⟩ : ∃ x, a = .bool x := by cases a <;> simp_all [isBool]
    obtain ⟨y, rfl⟩ : ∃ y, b = .bool y := by cases b <;> simp_all [isBool]
    rw [looseEqUnfolding_bool_left, looseEqUnfolding_bool_right _ (isBool_boolAsNumber _),
      ← core d]

end Value

/-- `==` is symmetric and contains `===`, and the arms of `==` as written, where a boolean operand
is replaced by its number and `==` asked again, always answer within two replacements, with the
answer of `looseEq`. -/
theorem loose_equality_symmetric_and_total (a b : Value) :
    Value.looseEq a b = Value.looseEq b a ∧
    (Value.strictEq a b = true → Value.looseEq a b = true) ∧
    ∀ d, 2 ≤ d → Value.looseEqUnfolding d a b = some (Value.looseEq a b) :=
  ⟨Value.looseEq_comm a b, Value.looseEq_of_strictEq,
    fun _ hd => Value.looseEqUnfolding_of_two_le hd a b⟩

/-- `true == true` needs both replacements: the arms turn the left `true` into `1`, then the right
one, and answer `1 === 1`. -/
theorem true_loosely_equals_true :
    Value.strictEq (.bool true) (.bool true) = true ∧
    Value.looseEqUnfolding 2 (.bool true) (.bool true) = some true := by
  have h := loose_equality_symmetric_and_total (.bool true) (.bool true)
  refine ⟨rfl, ?_⟩
  rw [h.2.2 2 (Nat.le_refl 2), h.2.1 rfl]

example : Value.looseEqUnfolding 1 (.bool true) (.bool true) = none := rfl

end EcmaLite
