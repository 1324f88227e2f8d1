import Mathlib
import EcmaLite.Proofs.ShortestWhole

/-!
# Number literals as property keys

An object literal `{t: v}` stores `v` under the key `NumLit.keyText t`: the decimal of an `int`
literal, the shortest positional text of a `float` one. Read back as an expression, `t` is the
number `Emit.numberOf t`, the literal's double in normal form, and a property read looks that
number up by its text.

A whole number up to `2^53 - 1` in magnitude is a normal double whose bits give it back, so its
normal form is the `int` itself (`ofFloat_ofInt`). With the agreement of the two printers
(`shortestText_eq_toText_ofFloat_iff`) this settles when the keys agree
(`numeric_literal_key_agreement`): for every `int` literal within that range, and for a `float`
literal exactly when it is finite and not `-0`. Beyond it they part: `9007199254740993` is stored
under its own decimal and read under `9007199254740992`, the text of its double.
-/

namespace EcmaLite

open Float.Model

namespace Double

/-- `Float` keeps the bits of a normal double as they are. -/
theorem toBits_ofBits_normal (u : UInt64) (h1 : 0 < u.toNat / 4503599627370496 % 2048)
    (h2 : u.toNat / 4503599627370496 % 2048 < 2047) : (Float.ofBits u).toBits = u := by
  rw [← UInt64.toNat_toBitVec] at h1 h2
  show UInt64.ofBitVec (UnpackedFloat.pack Format.binary64
    (UnpackedFloat.unpack Format.binary64 u.toBitVec)) = u
  rw [pack_unpack_normal u.toBitVec h1 h2]

section Encode

variable (neg : Bool) {m : Nat} {e : Int} (hlo : hidden ≤ m) (hhi : m < 2 * hidden)
  (he1 : -1074 ≤ e) (he2 : e ≤ 971)
include hlo hhi he1 he2

/-- The word of a double encoded from a normal mantissa and exponent: the sign at bit 63, the
exponent field `e + 1075` at bit 52, the fraction below. -/
theorem toBits_encode :
    (encode neg m e).toBits.toNat = (if neg then 9223372036854775808 else 0) +
      ((e + 1075).toNat * 4503599627370496 + (m - 4503599627370496)) := by
  have hh := hidden_eq
  have hsign : (if neg then Nat.pow 2 63 else 0) = (if neg then 9223372036854775808 else 0) := by
    cases neg <;> rfl
  have hlt : (if neg then 9223372036854775808 else 0) +
      ((e + 1075).toNat * 4503599627370496 + (m - 4503599627370496)) < 18446744073709551616 := by
    split <;> omega
  unfold encode
  rw [if_neg (show ¬ m < hidden by omega)]
  dsimp only
  rw [hsign, hh, toBits_ofBits_normal _ (by rw [UInt64.toNat_ofNat_of_lt' hlt]; split <;> omega)
    (by rw [UInt64.toNat_ofNat_of_lt' hlt]; split <;> omega), UInt64.toNat_ofNat_of_lt' hlt]

theorem fields_encode :
    expField (encode neg m e) = (e + 1075).toNat ∧ fracField (encode neg m e) = m - hidden ∧
      signBit (encode neg m e) = neg := by
  have hb := toBits_encode neg hlo hhi he1 he2
  have hh := hidden_eq
  refine ⟨?_, ?_, ?_⟩
  · rw [expField_eq, hb]
    split <;> omega
  · rw [fracField_eq, hb]
    split <;> omega
  · rw [signBit_eq, hb]
    cases neg
    · simp only [Bool.false_eq_true, ↓reduceIte, decide_eq_false_iff_not]
      omega
    · simp only [↓reduceIte, decide_eq_true_eq]
      omega

theorem parts_encode : parts (encode neg m e) = (m, e) := by
  obtain ⟨hexp, hfrac, -⟩ := fields_encode neg hlo hhi he1 he2
  rw [parts, hexp, if_neg (by omega), hfrac]
  exact Prod.ext (by simp only; omega) (by simp only; omega)

theorem isFinite_encode : isFinite (encode neg m e) = true := by
  obtain ⟨hexp, -, -⟩ := fields_encode neg hlo hhi he1 he2
  simp only [isFinite, hexp, decide_eq_true_eq]
  omega

end Encode

/-- A magnitude below `2^53` shifted up to the place of the hidden bit is a normal mantissa. -/
theorem shifted_mantissa {n : Nat} (h0 : n ≠ 0) (hn : n < 2 * hidden) :
    n.log2 ≤ 52 ∧ hidden ≤ n * 2 ^ (52 - n.log2) ∧ n * 2 ^ (52 - n.log2) < 2 * hidden := by
  have hlo : 2 ^ n.log2 ≤ n := Nat.log2_self_le h0
  have hhi : n < 2 ^ (n.log2 + 1) := Nat.lt_log2_self
  have hk : n.log2 ≤ 52 := by
    have := (Nat.log2_lt h0).mpr (show n < 2 ^ 53 by rw [hidden_eq] at hn; omega)
    omega
  refine ⟨hk, ?_, ?_⟩
  · calc hidden = 2 ^ n.log2 * 2 ^ (52 - n.log2) := by
          rw [← Nat.pow_add, Nat.add_sub_cancel' hk]
          rfl
      _ ≤ n * 2 ^ (52 - n.log2) := Nat.mul_le_mul_right _ hlo
  · calc n * 2 ^ (52 - n.log2) < 2 ^ (n.log2 + 1) * 2 ^ (52 - n.log2) :=
          Nat.mul_lt_mul_of_pos_right hhi (Nat.two_pow_pos _)
      _ = 2 * hidden := by
          rw [← Nat.pow_add, hidden_eq, show n.log2 + 1 + (52 - n.log2) = 53 by omega]

section OfInt

variable {i : Int} (h0 : i ≠ 0) (hi : i.natAbs < 2 * hidden)
include h0 hi

theorem ofInt_eq_encode :
    ofInt i = encode (decide (i < 0)) (i.natAbs * 2 ^ (52 - i.natAbs.log2))
      ((i.natAbs.log2 : Int) - 52) := by
  unfold ofInt
  dsimp only
  rw [if_pos ⟨by omega, hi⟩, Nat.shiftLeft_eq]

/-- A whole number below `2^53` in magnitude, other than zero, is the normal double of its
magnitude shifted up to the hidden bit, the exponent making up for the shift. -/
theorem ofInt_fields :
    parts (ofInt i) = (i.natAbs * 2 ^ (52 - i.natAbs.log2), (i.natAbs.log2 : Int) - 52) ∧
      signBit (ofInt i) = decide (i < 0) ∧ isFinite (ofInt i) = true := by
  obtain ⟨hk, hlo, hhi⟩ := shifted_mantissa (Int.natAbs_ne_zero.mpr h0) hi
  have he1 : -1074 ≤ (i.natAbs.log2 : Int) - 52 := by omega
  have he2 : (i.natAbs.log2 : Int) - 52 ≤ 971 := by omega
  rw [ofInt_eq_encode h0 hi]
  exact ⟨parts_encode _ hlo hhi he1 he2, (fields_encode _ hlo hhi he1 he2).2.2,
    isFinite_encode _ hlo hhi he1 he2⟩

theorem isIntegral_ofInt : isIntegral (ofInt i) = true := by
  have hshift : (-((i.natAbs.log2 : Int) - 52)).toNat = 52 - i.natAbs.log2 := by omega
  simp only [isIntegral, (ofInt_fields h0 hi).1, Nat.pow_eq, hshift, Nat.mul_mod_left, or_true,
    decide_true]

/-- The double of a whole number below `2^53` in magnitude gives the number back. -/
theorem toInt_ofInt : toInt (ofInt i) = i := by
  obtain ⟨hp, hsign, -⟩ := ofInt_fields h0 hi
  have hk := (shifted_mantissa (Int.natAbs_ne_zero.mpr h0) hi).1
  rw [toInt_eq hp, hsign, show (-((i.natAbs.log2 : Int) - 52)).toNat = 52 - i.natAbs.log2 by omega,
    show ((i.natAbs.log2 : Int) - 52).toNat = 0 by omega, pow_zero, Nat.mul_one,
    Nat.mul_div_cancel _ (Nat.two_pow_pos _)]
  by_cases hneg : i < 0
  · simp only [hneg, decide_true, ↓reduceIte]
    omega
  · simp only [hneg, decide_false, Bool.false_eq_true, ↓reduceIte]
    omega

end OfInt

/-- A whole number up to `2^53 - 1` in magnitude is its own double: the double is finite and
whole, and its normal form is the number. -/
theorem ofFloat_ofInt {i : Int} (hi : i.natAbs ≤ Number.maxSafe) :
    Number.ofFloat (ofInt i) = .int i := by
  by_cases h0 : i = 0
  · -- zero is `+0`, whose normal form is the `int` zero
    subst h0
    have hfin : isFinite (ofInt 0) = true := by decide +kernel
    have hz : parts (ofInt 0) = (0, -1074) := by decide +kernel
    have hsign : signBit (ofInt 0) = false := by decide +kernel
    rw [ofFloat_of_zero hfin hz, hsign]
    rfl
  have hi2 : i.natAbs < 2 * hidden := lt_of_le_of_lt hi Number.maxSafe_lt
  obtain ⟨hp, -, hfin⟩ := ofInt_fields h0 hi2
  have hnz : ¬(signBit (ofInt i) = true ∧ parts (ofInt i) = (0, -1074)) := by
    rintro ⟨-, hz⟩
    rw [hp, Prod.mk.injEq] at hz
    have hlo := (shifted_mantissa (Int.natAbs_ne_zero.mpr h0) hi2).2.1
    rw [hidden_eq] at hlo
    omega
  rw [ofFloat_of_isFinite hfin, toInt_ofInt h0 hi2, if_pos ⟨isIntegral_ofInt h0 hi2, hi, hnz⟩]

end Double

/-- The key an object literal stores under a number literal and the key a read of the same
literal looks up agree for every whole literal up to `2^53 - 1` in magnitude, and for a double
literal exactly when it is finite and not `-0`. -/
theorem numeric_literal_key_agreement (w : World) (i : Int) (f : Float) :
    (i.natAbs ≤ Number.maxSafe →
      NumLit.keyText (.int i) = w.text (.num (Emit.numberOf (.int i)))) ∧
    (NumLit.keyText (.float f) = w.text (.num (Emit.numberOf (.float f))) ↔
      Double.isInfinite f = false ∧ ¬(Double.signBit f = true ∧ Double.parts f = (0, -1074))) := by
  refine ⟨fun hi => ?_, Double.shortestText_eq_toText_ofFloat_iff f⟩
  show toString i = (Number.ofFloat (Double.ofInt i)).toText
  rw [Double.ofFloat_ofInt hi]
  rfl

/-- The agreement ends at `2^53 - 1`: that literal is stored and read under one key, while
`9007199254740993` is stored under its own decimal and read under the text of its double,
`9007199254740992`; and the infinite double literal is stored as `inf` and read as
`Infinity`. -/
theorem literal_keys_part_past_max_safe :
    NumLit.keyText (.int 9007199254740991) =
      (default : World).text (.num (Emit.numberOf (.int 9007199254740991))) ∧
    NumLit.keyText (.int 9007199254740993) = "9007199254740993" ∧
    (default : World).text (.num (Emit.numberOf (.int 9007199254740993))) = "9007199254740992" ∧
    NumLit.keyText (.float Double.posInf) ≠
      (default : World).text (.num (Emit.numberOf (.float Double.posInf))) := by
  have hkeys := numeric_literal_key_agreement default 9007199254740991 Double.posInf
  refine ⟨hkeys.1 (by decide), by decide +kernel, by decide +kernel, fun h => ?_⟩
  have hinf : Double.isInfinite Double.posInf = true := by decide +kernel
  exact absurd (hkeys.2.mp h).1 (by rw [hinf]; decide)

end EcmaLite
