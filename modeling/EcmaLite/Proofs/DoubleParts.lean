import Mathlib
import EcmaLite.Proofs.LiteralKeys

/-!
# A finite double is the encoding of its parts

`parts` reads a finite double as a mantissa and an exponent and `encode` writes a sign, a
mantissa and an exponent as a double. The two are inverse on every finite double other than a
zero (`encode_parts`): the bits of a subnormal double, like those of a normal one, survive the
trip through `Float`'s unpacked form. Setting the sign bit negates (`neg_encode`), so the
double of a negative text is the encoding with the sign set.
-/

namespace EcmaLite.Double

open Float.Model Float.Model.UnpackedFloat

/-- The bits of a subnormal double other than a zero unpack to its fraction at the least
exponent. -/
theorem unpack_subnormal (b : BitVec 64) (h0 : b.toNat / 4503599627370496 % 2048 = 0)
    (hf : 0 < b.toNat % 4503599627370496) :
    UnpackedFloat.unpack Format.binary64 b =
      .finite (Sign.ofBitVec (@unpackSign Format.binary64 b)) (b.toNat % hidden) (-1074)
        (by rw [hidden_eq]; omega) := by
  have hne1 : @unpackExponent Format.binary64 b ≠ -1#11 := by
    intro h
    have h' := congrArg BitVec.toNat h
    rw [toNat_unpackExponent] at h'
    simp at h'
    omega
  have he0 : @unpackExponent Format.binary64 b = 0#11 := by
    apply BitVec.eq_of_toNat_eq
    rw [toNat_unpackExponent]
    simpa using h0
  have hm0 : @unpackMantissa Format.binary64 b ≠ 0#52 := by
    intro h
    have h' := congrArg BitVec.toNat h
    rw [toNat_unpackMantissa] at h'
    simp at h'
    omega
  unfold UnpackedFloat.unpack
  rw [if_neg hne1, if_pos he0, dif_neg hm0]
  refine finite_congr rfl (by rw [toNat_unpackMantissa, hidden_eq]) ?_
  rw [he0]
  simp [Format.exponentBias]

/-- A subnormal double other than a zero packs back to its bits. -/
theorem pack_unpack_subnormal (b : BitVec 64) (h0 : b.toNat / 4503599627370496 % 2048 = 0)
    (hf : 0 < b.toNat % 4503599627370496) :
    UnpackedFloat.pack Format.binary64 (UnpackedFloat.unpack Format.binary64 b) = b := by
  rw [unpack_subnormal b h0 hf]
  have hlog : (b.toNat % hidden).log2 < 52 := by
    rw [Nat.log2_lt (by rw [hidden_eq]; omega)]
    rw [hidden_eq]
    omega
  unfold UnpackedFloat.pack
  have hE : ((-1074 : Int) + (Format.binary64.exponentBias : Int) +
      (Format.binary64.mantissaBitsWithoutImplicit : Int)).toNat = 1 := by
    simp [Format.exponentBias]
  simp only [hE]
  have hn : ¬ (b.toNat % hidden).log2 + 1 = Format.binary64.mantissaBits := by
    change ¬ _ = 53
    omega
  rw [if_neg (by decide), if_neg hn]
  apply BitVec.eq_of_toNat_eq
  simp only [packComponents, BitVec.toNat_append, toBitVec_ofBitVec, toNat_unpackSign,
    BitVec.toNat_ofNat]
  have hb := b.isLt
  rw [← Nat.shiftLeft_add_eq_or_of_lt (by omega), ← Nat.shiftLeft_add_eq_or_of_lt (by omega)]
  simp only [Nat.shiftLeft_eq, hidden_eq]
  omega

/-- Packing the unpacked bits of a finite double other than a zero gives the bits back. -/
theorem pack_unpack_of_finite (b : BitVec 64) (hfin : b.toNat / 4503599627370496 % 2048 ≠ 2047)
    (hnz : b.toNat / 4503599627370496 % 2048 = 0 → 0 < b.toNat % 4503599627370496) :
    UnpackedFloat.pack Format.binary64 (UnpackedFloat.unpack Format.binary64 b) = b := by
  by_cases h0 : b.toNat / 4503599627370496 % 2048 = 0
  · exact pack_unpack_subnormal b h0 (hnz h0)
  · exact pack_unpack_normal b (by omega) (by omega)

/-- A finite double other than a zero is the double of its own bits. -/
theorem ofBits_toBits {x : Float} (hfin : isFinite x = true) (hnz : parts x ≠ (0, -1074)) :
    Float.ofBits x.toBits = x := by
  have hexp : x.toBits.toNat / 4503599627370496 % 2048 ≠ 2047 := by
    rw [← expField_eq]
    simpa [isFinite] using hfin
  have hfrac : x.toBits.toNat / 4503599627370496 % 2048 = 0 →
      0 < x.toBits.toNat % 4503599627370496 := by
    intro h0
    have hp : parts x = (fracField x, -1074) := by
      rw [parts, if_pos (by rw [expField_eq]; exact h0)]
    rw [← fracField_eq]
    exact Nat.pos_of_ne_zero fun hf => hnz (by rw [hp, hf])
  obtain ⟨⟨u, hv⟩⟩ := x
  show Float.ofModel (Float.Model.pack (UnpackedFloat.unpack Format.binary64 u.toBitVec)) = _
  rw [← UInt64.toNat_toBitVec] at hexp hfrac
  have hpack := pack_unpack_of_finite u.toBitVec hexp hfrac
  simp only [Float.Model.pack, hpack, UInt64.ofBitVec_toBitVec]

/-- The word a double's sign and parts encode is the double's own word. -/
theorem encode_parts_word (x : Float) :
    (if signBit x then Nat.pow 2 63 else 0) +
      (if (parts x).1 < hidden then (parts x).1
        else ((parts x).2 + 1075).toNat * hidden + ((parts x).1 - hidden)) = x.toBits.toNat := by
  have hB := x.toBits.toNat_lt
  have hh := hidden_eq
  have hexp := expField_eq x
  have hfrac := fracField_eq x
  -- the sign bit is the word's top bit
  have hsign : (if signBit x then Nat.pow 2 63 else 0) =
      x.toBits.toNat / 9223372036854775808 * 9223372036854775808 := by
    rw [signBit_eq]
    split
    · next h => simp only [decide_eq_true_eq] at h; rw [Nat.pow_eq]; omega
    · next h => simp only [decide_eq_true_eq] at h; omega
  rw [hsign]
  by_cases hE : expField x = 0
  · rw [show parts x = (fracField x, -1074) by rw [parts, if_pos hE]]
    dsimp only
    rw [if_pos (by omega)]
    omega
  · rw [show parts x = (fracField x + hidden, (expField x : Int) - 1075) by rw [parts, if_neg hE]]
    dsimp only
    rw [if_neg (by omega), show ((expField x : Int) - 1075 + 1075).toNat = expField x by omega, hh]
    omega

/-- A finite double other than a zero is the encoding of its sign and parts. -/
theorem encode_parts {x : Float} (hfin : isFinite x = true) (hnz : parts x ≠ (0, -1074)) :
    encode (signBit x) (parts x).1 (parts x).2 = x := by
  unfold encode
  dsimp only
  rw [encode_parts_word x, UInt64.ofNat_toNat]
  exact ofBits_toBits hfin hnz

/-- Setting the sign bit of the word of a finite double other than a zero negates it. -/
theorem unpack_negate (b b' : BitVec 64) (hb : b.toNat < 9223372036854775808)
    (hb' : b'.toNat = b.toNat + 9223372036854775808)
    (hfin : b.toNat / 4503599627370496 % 2048 ≠ 2047)
    (hnz : b.toNat / 4503599627370496 % 2048 = 0 → 0 < b.toNat % 4503599627370496) :
    UnpackedFloat.unpack Format.binary64 b' = (UnpackedFloat.unpack Format.binary64 b).neg := by
  have hb'lt := b'.isLt
  have hsign : Sign.ofBitVec (@unpackSign Format.binary64 b') =
      -Sign.ofBitVec (@unpackSign Format.binary64 b) := by
    rw [ofBitVec_unpackSign, ofBitVec_unpackSign,
      if_neg (show ¬ b'.toNat / 9223372036854775808 % 2 = 0 by omega),
      if_pos (show b.toNat / 9223372036854775808 % 2 = 0 by omega)]
    rfl
  by_cases h0 : b.toNat / 4503599627370496 % 2048 = 0
  · rw [unpack_subnormal b' (by omega) (by omega), unpack_subnormal b h0 (hnz h0)]
    exact finite_congr hsign (by rw [hidden_eq]; omega) rfl
  · rw [unpack_normal b' (by omega) (by omega), unpack_normal b (by omega) (by omega)]
    exact finite_congr hsign (by rw [hidden_eq]; omega) (by rw [hidden_eq]; omega)

/-- Negating the encoding of a mantissa and exponent encodes them with the sign set. -/
theorem neg_encode {m : Nat} {e : Int} (hm0 : 0 < m) (hm : m < 2 * hidden) (he1 : -1074 ≤ e)
    (he2 : e ≤ 971) : -encode false m e = encode true m e := by
  have hh := hidden_eq
  unfold encode
  dsimp only
  generalize hmag : (if m < hidden then m else (e + 1075).toNat * hidden + (m - hidden)) = mag
  -- the magnitude word: below the sign bit, a finite exponent field, a zero only if subnormal
  have hlt : mag < 9223372036854775808 := by
    rw [← hmag]
    split
    · omega
    · have : (e + 1075).toNat ≤ 2046 := by omega
      rw [hh]
      omega
  have hfin : mag / 4503599627370496 % 2048 ≠ 2047 := by
    rw [← hmag]
    split
    · omega
    · rw [hh]
      omega
  have hnz : mag / 4503599627370496 % 2048 = 0 → 0 < mag % 4503599627370496 := by
    rw [← hmag]
    split
    · omega
    · rw [hh]
      omega
  have h0 : (UInt64.ofNat mag).toBitVec.toNat = mag := by
    rw [UInt64.toNat_toBitVec, UInt64.toNat_ofNat_of_lt' (show mag < 18446744073709551616 by omega)]
  have h1 : (UInt64.ofNat (Nat.pow 2 63 + mag)).toBitVec.toNat = mag + 9223372036854775808 := by
    rw [UInt64.toNat_toBitVec, UInt64.toNat_ofNat_of_lt'
      (show Nat.pow 2 63 + mag < 18446744073709551616 by rw [Nat.pow_eq]; omega), Nat.pow_eq]
    omega
  simp only [Bool.false_eq_true, if_false, if_true, Nat.zero_add]
  show Float.ofModel (Float.Model.pack (Float.Model.pack
      (UnpackedFloat.unpack Format.binary64 (UInt64.ofNat mag).toBitVec)).unpack.neg) =
    Float.ofModel (Float.Model.pack
      (UnpackedFloat.unpack Format.binary64 (UInt64.ofNat (Nat.pow 2 63 + mag)).toBitVec))
  rw [← h0] at hlt hfin hnz
  simp only [Float.Model.unpack, Float.Model.pack, UInt64.toBitVec_ofBitVec,
    pack_unpack_of_finite _ hfin hnz,
    unpack_negate _ (UInt64.ofNat (Nat.pow 2 63 + mag)).toBitVec hlt (by rw [h1, h0]) hfin hnz]

end EcmaLite.Double
