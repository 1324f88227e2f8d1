import Mathlib
import EcmaLite.Machine.Run

/-!
# Numbers in normal form

`Number.ofFloat` brings a double into *normal form*: NaN and the infinities become their own
variants, a finite whole double within `2^53 - 1` of zero (other than `-0`) becomes an `int`,
and every other double stays a `float`. Arithmetic, negation, number literals and the number an
update stores all go through it (`ofFloat_normal`, `numberOf_normal`). So does `ToNumber` of a
string, except for a hexadecimal numeral, which is read as a signed 64-bit word and kept as an
`int` whatever its size (`ofText_normal_iff`); unary plus and the result of a postfix update are
`ToNumber` of what they are given (`toNumber_normal`).

On numbers in normal form `===` says what IEEE-754 equality of their doubles says, which is what
the order behind `<` calls equal, and it is transitive (`same_eq_beq`, `order_eq_iff_same`,
`same_trans`). The doubles are read through the logical model of `Float`: a whole number below
`2^53` in magnitude is a normal double whose bits unpack to its own magnitude, shifted to the
place of the hidden bit (`unpack_ofInt`), so two such numbers have equal doubles only when they
are equal (`ofInt_beq_ofInt`). Outside normal form this fails: `0x20000000000001` and
`0x20000000000000` are two `int`s with one double.
-/

namespace EcmaLite

open Float.Model Float.Model.UnpackedFloat

/-! ## Doubles in the logical model of `Float` -/

namespace Double

theorem hidden_eq : hidden = 4503599627370496 := rfl

theorem toNat_unpackExponent (b : BitVec 64) :
    (@unpackExponent Format.binary64 b).toNat = b.toNat / 4503599627370496 % 2048 := by
  simp [unpackExponent, BitVec.extractLsb_toNat, Nat.shiftRight_eq_div_pow]

theorem toNat_unpackMantissa (b : BitVec 64) :
    (@unpackMantissa Format.binary64 b).toNat = b.toNat % 4503599627370496 := by
  simp [unpackMantissa, BitVec.extractLsb_toNat]

theorem toNat_unpackSign (b : BitVec 64) :
    (@unpackSign Format.binary64 b).toNat = b.toNat / 9223372036854775808 % 2 := by
  delta unpackSign
  simp [BitVec.extractLsb_toNat, Nat.shiftRight_eq_div_pow]

theorem toBitVec_ofBitVec (v : BitVec 1) : (Sign.ofBitVec v).toBitVec = v := by
  unfold Sign.ofBitVec
  split
  · next h =>
    rw [h]
    rfl
  · next h =>
    have hv : v = 1#1 := by
      have hlt := v.isLt
      have h0 : v.toNat ≠ 0 := fun h' => h (BitVec.eq_of_toNat_eq (by simpa using h'))
      apply BitVec.eq_of_toNat_eq
      simp only [BitVec.toNat_ofNat]
      omega
    rw [hv]
    rfl

theorem ofBitVec_unpackSign (b : BitVec 64) :
    Sign.ofBitVec (@unpackSign Format.binary64 b) =
      if b.toNat / 9223372036854775808 % 2 = 0 then .positive else .negative := by
  unfold Sign.ofBitVec
  rw [← toNat_unpackSign]
  simp [BitVec.toNat_eq]

theorem finite_congr {s s' : Sign} {m m' : Nat} {e e' : Int} {h : 0 < m} {h' : 0 < m'}
    (hs : s = s') (hm : m = m') (he : e = e') : finite s m e h = finite s' m' e' h' := by
  subst hs hm he
  rfl

/-- The bits of a normal double unpack to its sign, its fraction with the hidden bit, and its
exponent field less `1075`. -/
theorem unpack_normal (b : BitVec 64) (h1 : 0 < b.toNat / 4503599627370496 % 2048)
    (h2 : b.toNat / 4503599627370496 % 2048 < 2047) :
    UnpackedFloat.unpack Format.binary64 b =
      .finite (Sign.ofBitVec (@unpackSign Format.binary64 b)) (hidden + b.toNat % hidden)
        (((b.toNat / hidden % 2048 : Nat) : Int) - 1075) (by rw [hidden_eq]; omega) := by
  have hne1 : @unpackExponent Format.binary64 b ≠ -1#11 := by
    intro h
    have h' := congrArg BitVec.toNat h
    rw [toNat_unpackExponent] at h'
    simp at h'
    omega
  have hne0 : @unpackExponent Format.binary64 b ≠ 0#11 := by
    intro h
    have h' := congrArg BitVec.toNat h
    rw [toNat_unpackExponent] at h'
    simp at h'
    omega
  unfold UnpackedFloat.unpack
  rw [if_neg hne1, if_neg hne0]
  have hm : (1#1 ++ @unpackMantissa Format.binary64 b).toNat = hidden + b.toNat % hidden := by
    rw [BitVec.toNat_append, ← Nat.shiftLeft_add_eq_or_of_lt (BitVec.isLt _),
      toNat_unpackMantissa]
    simp [Nat.shiftLeft_eq, hidden_eq]
  refine finite_congr rfl hm ?_
  rw [toNat_unpackExponent]
  simp only [Format.exponentBias, hidden_eq]
  omega

/-- Packing the unpacked bits of a normal double gives the bits back. -/
theorem pack_unpack_normal (b : BitVec 64) (h1 : 0 < b.toNat / 4503599627370496 % 2048)
    (h2 : b.toNat / 4503599627370496 % 2048 < 2047) :
    UnpackedFloat.pack Format.binary64 (UnpackedFloat.unpack Format.binary64 b) = b := by
  rw [unpack_normal b h1 h2]
  have hlog : (hidden + b.toNat % hidden).log2 = 52 := by
    rw [Nat.log2_eq_iff (by simp [hidden_eq])]
    simp only [hidden_eq]
    omega
  unfold UnpackedFloat.pack
  simp only [hlog]
  have hE : ((((b.toNat / hidden % 2048 : Nat) : Int) - 1075 +
      (Format.binary64.exponentBias : Int) +
      (Format.binary64.mantissaBitsWithoutImplicit : Int)).toNat) =
      b.toNat / 4503599627370496 % 2048 := by
    simp only [Format.exponentBias, hidden_eq]
    omega
  rw [hE, if_neg (by simp; omega), if_pos (by decide)]
  apply BitVec.eq_of_toNat_eq
  simp only [packComponents, BitVec.toNat_append, toBitVec_ofBitVec, toNat_unpackSign,
    BitVec.toNat_ofNat]
  have hb := b.isLt
  rw [← Nat.shiftLeft_add_eq_or_of_lt (by omega), ← Nat.shiftLeft_add_eq_or_of_lt (by omega)]
  simp only [Nat.shiftLeft_eq, hidden_eq]
  omega

/-- The double with the bits of a normal double unpacks as those bits do: `Float` keeps a
normal double's bits as they are. -/
theorem unpack_ofBits (u : UInt64) (h1 : 0 < u.toNat / 4503599627370496 % 2048)
    (h2 : u.toNat / 4503599627370496 % 2048 < 2047) :
    (Float.ofBits u).toModel.unpack = UnpackedFloat.unpack Format.binary64 u.toBitVec := by
  show UnpackedFloat.unpack Format.binary64
    (UnpackedFloat.pack Format.binary64 (UnpackedFloat.unpack Format.binary64 u.toBitVec)) = _
  rw [pack_unpack_normal u.toBitVec h1 h2]

/-- A mantissa with its hidden bit set and an exponent in the normal range encode a double that
unpacks to them. -/
theorem unpack_encode (neg : Bool) (m : Nat) (e : Int) (hlo : hidden ≤ m) (hhi : m < 2 * hidden)
    (he1 : -1074 ≤ e) (he2 : e ≤ 971) :
    (encode neg m e).toModel.unpack =
      .finite (if neg then .negative else .positive) m e (by rw [hidden_eq] at hlo; omega) := by
  unfold encode
  rw [if_neg (show ¬ m < hidden by omega)]
  dsimp only
  -- the sign as a bit
  obtain ⟨s, hs1, hsign, hpow⟩ : ∃ s : Nat, s ≤ 1 ∧
      (if neg then Sign.negative else Sign.positive) =
        (if s = 0 then Sign.positive else Sign.negative) ∧
      (if neg then Nat.pow 2 63 else 0) = s * 9223372036854775808 := by
    cases neg
    · exact ⟨0, Nat.zero_le _, rfl, rfl⟩
    · exact ⟨1, Nat.le_refl _, rfl, rfl⟩
  rw [hsign, hpow]
  have hh := hidden_eq
  -- the word: sign at bit 63, exponent field `e + 1075` at bit 52, the fraction below
  have hbits : s * 9223372036854775808 + ((e + 1075).toNat * hidden + (m - hidden)) =
      s * 9223372036854775808 + ((e + 1075).toNat * 4503599627370496 + (m - 4503599627370496)) := by
    rw [hh]
  rw [hbits]
  generalize hu_def : UInt64.ofNat (s * 9223372036854775808 +
      ((e + 1075).toNat * 4503599627370496 + (m - 4503599627370496))) = u
  have hu : u.toNat =
      s * 9223372036854775808 + ((e + 1075).toNat * 4503599627370496 + (m - 4503599627370496)) := by
    rw [← hu_def]
    exact UInt64.toNat_ofNat_of_lt (by show _ < 18446744073709551616; omega)
  have h1 : 0 < u.toNat / 4503599627370496 % 2048 := by rw [hu]; omega
  have h2 : u.toNat / 4503599627370496 % 2048 < 2047 := by rw [hu]; omega
  rw [← UInt64.toNat_toBitVec] at h1 h2 hu
  rw [unpack_ofBits u (by rwa [UInt64.toNat_toBitVec] at h1) (by rwa [UInt64.toNat_toBitVec] at h2),
    unpack_normal u.toBitVec h1 h2, ofBitVec_unpackSign]
  apply finite_congr
  · rw [hu]
    by_cases hs : s = 0
    · rw [if_pos (by omega), if_pos hs]
    · rw [if_neg (by omega), if_neg hs]
  · rw [hu, hh]
    omega
  · rw [hu, hh]
    omega

/-- A whole number of magnitude below `2^53` other than zero is a normal double: its magnitude
shifted so that the leading bit is the hidden bit, the exponent making up for the shift. -/
theorem unpack_ofInt (i : Int) (h0 : i ≠ 0) (hi : i.natAbs < 2 * hidden) :
    (ofInt i).toModel.unpack = .finite (if i < 0 then .negative else .positive)
      (i.natAbs <<< (52 - i.natAbs.log2)) ((i.natAbs.log2 : Int) - 52)
      (by rw [Nat.shiftLeft_eq]; exact Nat.mul_pos (by omega) (Nat.two_pow_pos _)) := by
  have hm0 : i.natAbs ≠ 0 := by omega
  -- the leading bit of the magnitude is bit `k`, at most bit `52`
  have hlo : 2 ^ i.natAbs.log2 ≤ i.natAbs := Nat.log2_self_le hm0
  have hhi : i.natAbs < 2 ^ (i.natAbs.log2 + 1) := Nat.lt_log2_self
  have hk : i.natAbs.log2 ≤ 52 := by
    have := (Nat.log2_lt hm0).mpr (show i.natAbs < 2 ^ 53 by rw [hidden_eq] at hi; omega)
    omega
  -- shifted up by `52 - k`, it lies between `2^52` and `2^53`
  have hsplit : 2 ^ 52 = 2 ^ i.natAbs.log2 * 2 ^ (52 - i.natAbs.log2) := by
    rw [← Nat.pow_add, Nat.add_sub_cancel' hk]
  have hsplit' : 2 ^ 53 = 2 ^ (i.natAbs.log2 + 1) * 2 ^ (52 - i.natAbs.log2) := by
    rw [← Nat.pow_add]
    congr 1
    omega
  have hm'lo : hidden ≤ i.natAbs <<< (52 - i.natAbs.log2) := by
    rw [Nat.shiftLeft_eq, hidden_eq, show (4503599627370496 : Nat) = 2 ^ 52 from rfl, hsplit]
    exact Nat.mul_le_mul_right _ hlo
  have hm'hi : i.natAbs <<< (52 - i.natAbs.log2) < 2 * hidden := by
    rw [Nat.shiftLeft_eq, hidden_eq, show 2 * (4503599627370496 : Nat) = 2 ^ 53 from rfl, hsplit']
    exact Nat.mul_lt_mul_of_pos_right hhi (Nat.two_pow_pos _)
  unfold ofInt
  dsimp only
  rw [if_pos ⟨by omega, hi⟩]
  rw [unpack_encode _ _ _ hm'lo hm'hi (by omega) (by omega)]
  exact finite_congr (by simp only [decide_eq_true_eq]) rfl rfl

theorem unpack_ofInt_zero : (ofInt 0).toModel.unpack = .zero .positive := by
  rfl

theorem unpack_nan : (Float.ofBits 0x7FF8000000000000).toModel.unpack = .notANumber := by
  rfl

/-! ### IEEE comparison -/

/-- `compare` calls two unpacked doubles equal when both are zeros, whatever their signs, or when
they are one and the same value other than NaN. -/
theorem compare_eq_iff (a b : UnpackedFloat) :
    a.compare b = some .eq ↔ (∃ s t, a = .zero s ∧ b = .zero t) ∨ (a = b ∧ a ≠ .notANumber) := by
  rcases a with ⟨_ | _⟩ | _ | ⟨_ | _⟩ | ⟨_ | _, m, e, h⟩ <;>
  rcases b with ⟨_ | _⟩ | _ | ⟨_ | _⟩ | ⟨_ | _, m', e', h'⟩ <;>
  simp [UnpackedFloat.compare, and_comm] <;> rfl

/-- IEEE equality is transitive: NaN is equal to nothing, and the zeros are the only distinct
values `compare` calls equal. -/
theorem compare_eq_trans {a b c : UnpackedFloat} (hab : a.compare b = some .eq)
    (hbc : b.compare c = some .eq) : a.compare c = some .eq := by
  rw [compare_eq_iff] at hab hbc ⊢
  rcases hab with ⟨s, t, rfl, rfl⟩ | ⟨rfl, ha⟩
  · rcases hbc with ⟨_, u, -, rfl⟩ | ⟨rfl, -⟩
    · exact .inl ⟨s, u, rfl, rfl⟩
    · exact .inl ⟨s, t, rfl, rfl⟩
  · exact hbc

theorem compare_notANumber (a : UnpackedFloat) : a.compare .notANumber = none := by
  cases a <;> rfl

theorem beq_iff (a b : Float) :
    (a == b) = true ↔ a.toModel.unpack.compare b.toModel.unpack = some .eq := by
  show (a.toModel.unpack.compare b.toModel.unpack == some .eq) = true ↔ _
  simp

theorem lt_iff (a b : Float) : a < b ↔ a.toModel.unpack.compare b.toModel.unpack = some .lt := by
  show decide ((a.toModel.unpack.compare b.toModel.unpack == some .lt) = true) = true ↔ _
  simp

theorem beq_trans {a b c : Float} (hab : (a == b) = true) (hbc : (b == c) = true) :
    (a == c) = true := by
  rw [beq_iff] at *
  exact compare_eq_trans hab hbc

theorem not_lt_of_beq {a b : Float} (h : (a == b) = true) : ¬ a < b := by
  rw [beq_iff] at h
  rw [lt_iff, h]
  simp

/-! ### Whole numbers -/

theorem unpack_ofInt_ne_nan {x : Int} (hx : x.natAbs < 2 * hidden) :
    (ofInt x).toModel.unpack ≠ .notANumber := by
  by_cases hx0 : x = 0
  · rw [hx0, unpack_ofInt_zero]
    simp
  · rw [unpack_ofInt x hx0 hx]
    simp

theorem unpack_ofInt_eq_zero {x : Int} (hx : x.natAbs < 2 * hidden) {s : Sign} :
    (ofInt x).toModel.unpack = .zero s → x = 0 := by
  intro h
  by_cases hx0 : x = 0
  · exact hx0
  · rw [unpack_ofInt x hx0 hx] at h
    cases h

/-- The doubles of two whole numbers below `2^53` in magnitude unpack alike only when the numbers
are equal: the exponent fixes the leading bit, the mantissa the magnitude, the sign the rest. -/
theorem unpack_ofInt_inj {x y : Int} (hx : x.natAbs < 2 * hidden) (hy : y.natAbs < 2 * hidden)
    (h : (ofInt x).toModel.unpack = (ofInt y).toModel.unpack) : x = y := by
  by_cases hx0 : x = 0
  · rw [hx0, unpack_ofInt_zero] at h
    exact hx0.trans (unpack_ofInt_eq_zero hy h.symm).symm
  · by_cases hy0 : y = 0
    · rw [hy0, unpack_ofInt_zero] at h
      exact (unpack_ofInt_eq_zero hx h).trans hy0.symm
    · rw [unpack_ofInt x hx0 hx, unpack_ofInt y hy0 hy, finite.injEq] at h
      obtain ⟨hs, hm, he⟩ := h
      have hk : x.natAbs.log2 = y.natAbs.log2 := by omega
      have habs : x.natAbs = y.natAbs := by
        rw [hk, Nat.shiftLeft_eq, Nat.shiftLeft_eq] at hm
        exact Nat.eq_of_mul_eq_mul_right (Nat.two_pow_pos _) hm
      have hneg : x < 0 ↔ y < 0 := by
        by_cases hxn : x < 0 <;> by_cases hyn : y < 0 <;> simp [hxn, hyn] at hs ⊢
      rcases Int.natAbs_eq_natAbs_iff.mp habs with hxy | hxy
      · exact hxy
      · omega

/-- Two whole numbers below `2^53` in magnitude have equal doubles exactly when they are equal. -/
theorem ofInt_beq_ofInt {x y : Int} (hx : x.natAbs < 2 * hidden) (hy : y.natAbs < 2 * hidden) :
    (ofInt x == ofInt y) = (x == y) := by
  rw [Bool.eq_iff_iff, beq_iff, beq_iff_eq, compare_eq_iff]
  constructor
  · rintro (⟨s, t, hxs, hyt⟩ | ⟨hxy, -⟩)
    · rw [unpack_ofInt_eq_zero hx hxs, unpack_ofInt_eq_zero hy hyt]
    · exact unpack_ofInt_inj hx hy hxy
  · rintro rfl
    exact .inr ⟨rfl, unpack_ofInt_ne_nan hx⟩

end Double

/-! ## Normal form -/

namespace Number

/-- The normal form of a number, as `ofFloat` makes it: an `int` at most `2^53 - 1` from zero;
a finite `float` that is a fraction, a whole number beyond `2^53 - 1`, or `-0`; NaN and the
infinities as their own variants. -/
def Normal : Number → Prop
  | .int i => i.natAbs ≤ maxSafe
  | .float f => Double.isFinite f = true ∧
      (Double.isIntegral f = false ∨ maxSafe < (Double.toInt f).natAbs ∨
        (Double.signBit f = true ∧ Double.parts f = (0, -1074)))
  | .nan | .posInf | .negInf => True

instance : DecidablePred Normal := fun
  | .int i => inferInstanceAs (Decidable (i.natAbs ≤ maxSafe))
  | .float f => inferInstanceAs (Decidable (Double.isFinite f = true ∧
      (Double.isIntegral f = false ∨ maxSafe < (Double.toInt f).natAbs ∨
        (Double.signBit f = true ∧ Double.parts f = (0, -1074)))))
  | .nan | .posInf | .negInf => isTrue trivial

theorem maxSafe_lt : maxSafe < 2 * Double.hidden := by
  decide

/-- Every number arithmetic makes is in normal form. -/
theorem ofFloat_normal (f : Float) : (ofFloat f).Normal := by
  unfold ofFloat
  split
  · trivial
  · split
    · split <;> trivial
    · next hnan hinf =>
      split
      · next hsmall => exact hsmall.2.1
      · next hbig =>
        -- a double that is neither NaN nor infinite has an exponent field below `2047`
        have hfin : Double.isFinite f = true := by
          simp only [Double.isNaN, Double.isInfinite, decide_eq_true_eq] at hnan hinf
          simp only [Double.isFinite, decide_eq_true_eq]
          intro h2047
          by_cases hfrac : Double.fracField f = 0
          · exact hinf ⟨h2047, hfrac⟩
          · exact hnan ⟨h2047, hfrac⟩
        refine ⟨hfin, ?_⟩
        by_cases hint : Double.isIntegral f = true
        · by_cases hsafe : (Double.toInt f).natAbs ≤ maxSafe
          · have hzero : Double.signBit f = true ∧ Double.parts f = (0, -1074) :=
              Classical.not_not.mp fun h => hbig ⟨hint, hsafe, h⟩
            exact .inr (.inr hzero)
          · exact .inr (.inl (Nat.lt_of_not_le hsafe))
        · exact .inl (Bool.eq_false_iff.mpr hint)

/-- Number literals are compiled to constants in normal form. -/
theorem numberOf_normal (lit : NumLit) : (Emit.numberOf lit).Normal := by
  cases lit <;> exact ofFloat_normal _

/-! ## `ToNumber` -/

/-- The signed hexadecimal numeral a string is, around white space, when it is one that fits a
signed 64-bit word. -/
def hexText? (s : String) : Option Int :=
  match trimWhiteSpace s.toList with
  | '0' :: x :: ds => if x = 'x' ∨ x = 'X' then signedHex? ds else none
  | _ => none

theorem ofDecimalText_normal (t : List Char) : (ofText.ofDecimalText t).Normal := by
  unfold ofText.ofDecimalText
  split
  · trivial
  · split
    · trivial
    · split
      · trivial
      · split
        · exact ofFloat_normal _
        · trivial

theorem normal_iff_of_none {n : Number} (h : n.Normal) :
    n.Normal ↔ ∀ i, (none : Option Int) = some i → i.natAbs ≤ maxSafe :=
  ⟨fun _ _ hi => (nomatch hi), fun _ => h⟩

/-- `ToNumber` of a string is in normal form exactly when the string is no hexadecimal numeral
beyond `2^53 - 1`. -/
theorem ofText_normal_iff (s : String) :
    (ofText s).Normal ↔ ∀ i, hexText? s = some i → i.natAbs ≤ maxSafe := by
  unfold ofText hexText?
  generalize trimWhiteSpace s.toList = t
  rcases t with _ | ⟨c, _ | ⟨x, ds⟩⟩
  · simp [Normal]
  · -- a single character is no hexadecimal numeral
    dsimp only
    split
    · contradiction
    · split
      · simp_all
      · exact normal_iff_of_none (ofDecimalText_normal _)
  · by_cases hc : c = '0'
    · subst hc
      by_cases hx : x = 'x' ∨ x = 'X'
      · simp only [hx, if_true]
        cases signedHex? ds <;> simp [Normal]
      · simp only [hx, if_false]
        exact normal_iff_of_none (ofDecimalText_normal _)
    · dsimp only
      split
      · simp_all
      · split
        · simp_all
        · exact normal_iff_of_none (ofDecimalText_normal _)

end Number

/-- `ToNumber`, which unary plus and a postfix update return, keeps a number in normal form and
brings every other value into it, but a string that is a hexadecimal numeral beyond `2^53 - 1`. -/
theorem Value.toNumber_normal (v : Value) (hnum : ∀ n, v = .num n → n.Normal)
    (hstr : ∀ s, v = .str s → (Number.ofText s).Normal) : v.toNumber.Normal := by
  cases v with
  | undefined | obj _ => trivial
  | null => show (0 : Int).natAbs ≤ Number.maxSafe; simp
  | bool b => cases b <;> decide
  | str s => exact hstr s rfl
  | num n => exact hnum n rfl

/-! ## Strict equality on normal numbers -/

namespace Number

theorem nan_beq (f : Float) : (Number.nan.toFloat == f) = false := by
  rw [Bool.eq_false_iff, Ne, Double.beq_iff]
  show (Float.ofBits 0x7FF8000000000000).toModel.unpack.compare _ ≠ _
  rw [Double.unpack_nan]
  simp [UnpackedFloat.compare]

theorem beq_nan (f : Float) : (f == Number.nan.toFloat) = false := by
  rw [Bool.eq_false_iff, Ne, Double.beq_iff]
  show ¬ f.toModel.unpack.compare (Float.ofBits 0x7FF8000000000000).toModel.unpack = some .eq
  rw [Double.unpack_nan, Double.compare_notANumber]
  simp

/-- On numbers in normal form `===` is IEEE equality of their doubles: two `int`s compare
exactly, and within `2^53 - 1` that is what their doubles do. -/
theorem same_eq_beq {a b : Number} (ha : a.Normal) (hb : b.Normal) :
    same a b = (a.toFloat == b.toFloat) := by
  cases a <;> cases b <;> simp only [same, nan_beq, beq_nan]
  case int.int x y =>
    exact (Double.ofInt_beq_ofInt (Nat.lt_of_le_of_lt ha maxSafe_lt)
      (Nat.lt_of_le_of_lt hb maxSafe_lt)).symm

/-- The order behind `<` calls two numbers equal exactly when their doubles are IEEE-equal. -/
theorem order_eq_iff_beq (a b : Number) :
    Value.order (.num a) (.num b) = some .eq ↔ (a.toFloat == b.toFloat) = true := by
  show (if a.toFloat < b.toFloat then some Ordering.lt
      else if (a.toFloat == b.toFloat) = true then some Ordering.eq
      else if b.toFloat < a.toFloat then some Ordering.gt else none) = some .eq ↔ _
  generalize a.toFloat = x
  generalize b.toFloat = y
  constructor
  · intro h
    split at h
    · simp at h
    · split at h
      · assumption
      · split at h <;> simp at h
  · intro h
    rw [if_neg (Double.not_lt_of_beq h), if_pos h]

theorem order_eq_iff_same {a b : Number} (ha : a.Normal) (hb : b.Normal) :
    Value.order (.num a) (.num b) = some .eq ↔ same a b = true := by
  rw [same_eq_beq ha hb, order_eq_iff_beq]

theorem same_trans {a b c : Number} (ha : a.Normal) (hb : b.Normal) (hc : c.Normal)
    (hab : same a b = true) (hbc : same b c = true) : same a c = true := by
  rw [same_eq_beq ha hb] at hab
  rw [same_eq_beq hb hc] at hbc
  rw [same_eq_beq ha hc]
  exact Double.beq_trans hab hbc

end Number

/-- Arithmetic, number literals and `ToNumber` make numbers in normal form, but for `ToNumber` of
a hexadecimal numeral beyond `2^53 - 1`; on numbers in normal form `===` is IEEE equality of
their doubles, agrees with the order behind `<`, and is transitive. -/
theorem number_normal_form_gives_consistent_equality (f : Float) (lit : NumLit) (v : Value)
    (s : String) (a b c : Number) :
    (Number.ofFloat f).Normal ∧
    (Emit.numberOf lit).Normal ∧
    ((Number.ofText s).Normal ↔ ∀ i, Number.hexText? s = some i → i.natAbs ≤ Number.maxSafe) ∧
    ((∀ n, v = .num n → n.Normal) → (∀ t, v = .str t → (Number.ofText t).Normal) →
      v.toNumber.Normal) ∧
    (a.Normal → b.Normal →
      Value.strictEq (.num a) (.num b) = (a.toFloat == b.toFloat) ∧
      (Value.order (.num a) (.num b) = some .eq ↔ Value.strictEq (.num a) (.num b) = true)) ∧
    (a.Normal → b.Normal → c.Normal →
      Value.strictEq (.num a) (.num b) = true → Value.strictEq (.num b) (.num c) = true →
      Value.strictEq (.num a) (.num c) = true) :=
  ⟨Number.ofFloat_normal f, Number.numberOf_normal lit, Number.ofText_normal_iff s,
    Value.toNumber_normal v,
    fun ha hb => ⟨Number.same_eq_beq ha hb, Number.order_eq_iff_same ha hb⟩,
    Number.same_trans⟩

/-- `ToNumber` of `"0x20000000000001"` is an `int` beyond `2^53 - 1`; against the `int` of
`"0x20000000000000"`, which has the same double, `===` is false while the order calls the two
equal. -/
theorem hex_text_breaks_strict_equality :
    ¬ (Number.ofText "0x20000000000001").Normal ∧
    Value.strictEq (.num (Number.ofText "0x20000000000001"))
      (.num (Number.ofText "0x20000000000000")) = false ∧
    Value.order (.num (Number.ofText "0x20000000000001"))
      (.num (Number.ofText "0x20000000000000")) = some .eq := by
  refine ⟨fun h => ?_, by decide, by decide⟩
  have hnormal := (number_normal_form_gives_consistent_equality 0 (.int 0) .undefined
    "0x20000000000001" (Number.ofText "0x20000000000001") (Number.ofText "0x20000000000000")
    (Number.ofText "0x20000000000000")).2.2.1
  have hsafe := hnormal.mp h 9007199254740993 (by decide)
  exact absurd hsafe (by decide)

end EcmaLite
