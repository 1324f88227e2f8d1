import Mathlib
import EcmaLite.Proofs.NumberForm

/-!
# The shortest text of a whole double

`Double.shortestText` writes a finite double with the fewest significant digits that read back
as it. For a whole double `V` below `2^53` the rounding interval is narrower than one on either
side, so the only whole number in it is `V`. The search for the shortest digits tries `1, 2, …`
significant digits; up to the digit count of `V` every candidate it weighs is whole, and at that
count `V` itself reads back. So the search ends on `V`, and the text is the decimal of `V`
(`shortestText_of_whole`).

Together with the normal form of numbers this gives `shortestText_eq_toText_ofFloat_iff`: the
positional text of a double and the text of the number it is normalised to agree on every
double except the two infinities (`inf` against `Infinity`) and `-0`.
-/

namespace EcmaLite.Double

/-! ## Decimal digits -/

/-- Appending zeros to the decimal of a positive number multiplies it by ten each time. -/
theorem toDigits_mul_pow_ten {d : Nat} (hd : 0 < d) (t : Nat) :
    Nat.toDigits 10 (d * 10 ^ t) = Nat.toDigits 10 d ++ List.replicate t '0' := by
  induction t with
  | zero => simp
  | succ t ih =>
    have hpos : 0 < d * 10 ^ t := by positivity
    calc Nat.toDigits 10 (d * 10 ^ (t + 1))
        = Nat.toDigits 10 (10 * (d * 10 ^ t) + 0) := by ring_nf
      _ = Nat.toDigits 10 (d * 10 ^ t) ++ Nat.toDigits 10 0 :=
          (Nat.toDigits_append_toDigits (by decide) hpos (by decide)).symm
      _ = Nat.toDigits 10 d ++ List.replicate (t + 1) '0' := by
          rw [ih, Nat.toDigits_zero, List.replicate_succ', List.append_assoc]

theorem digitCount_mul_pow_ten {d : Nat} (hd : 0 < d) (t : Nat) :
    digitCount (d * 10 ^ t) = digitCount d + t := by
  simp only [digitCount, toDigits_mul_pow_ten hd, List.length_append, List.length_replicate]

theorem digitCount_pos (n : Nat) : 0 < digitCount n := Nat.length_toDigits_pos

theorem digitCount_le_iff {n k : Nat} (hk : 0 < k) : digitCount n ≤ k ↔ n < 10 ^ k :=
  Nat.length_toDigits_le_iff (by decide) hk

/-! ## The fields of a double -/

theorem expField_eq (x : Float) : expField x = x.toBits.toNat / 4503599627370496 % 2048 := by
  unfold expField
  simp only [UInt64.toNat_and, UInt64.toNat_shiftRight, Nat.shiftRight_eq_div_pow]
  rw [show (UInt64.toNat 0x7FF) = 2 ^ 11 - 1 from rfl, Nat.and_two_pow_sub_one_eq_mod]
  rfl

theorem fracField_eq (x : Float) : fracField x = x.toBits.toNat % 4503599627370496 := by
  unfold fracField
  simp only [UInt64.toNat_and]
  rw [show (UInt64.toNat 0xFFFFFFFFFFFFF) = 2 ^ 52 - 1 from rfl, Nat.and_two_pow_sub_one_eq_mod]

theorem signBit_eq (x : Float) : signBit x = decide (9223372036854775808 ≤ x.toBits.toNat) := by
  unfold signBit
  have hlt := x.toBits.toNat_lt
  rw [Bool.eq_iff_iff, beq_iff_eq, decide_eq_true_eq, ← UInt64.toNat_inj,
    UInt64.toNat_shiftRight]
  simp only [Nat.shiftRight_eq_div_pow, UInt64.toNat_one]
  rw [show UInt64.toNat 63 % 64 = 63 from rfl]
  omega

theorem not_isNaN_of_isFinite {x : Float} (h : isFinite x = true) : isNaN x = false := by
  simp only [isFinite, decide_eq_true_eq] at h
  simp [isNaN, h]

theorem not_isInfinite_of_isFinite {x : Float} (h : isFinite x = true) : isInfinite x = false := by
  simp only [isFinite, decide_eq_true_eq] at h
  simp [isInfinite, h]

theorem isFinite_of_not {x : Float} (hnan : isNaN x = false) (hinf : isInfinite x = false) :
    isFinite x = true := by
  simp only [isNaN, isInfinite, decide_eq_false_iff_not] at hnan hinf
  simp only [isFinite, decide_eq_true_eq]
  omega

/-- The normal form of a finite double: an `int` when it is whole, within `2^53 - 1` and not
`-0`, the double itself otherwise. -/
theorem ofFloat_of_isFinite {x : Float} (hfin : isFinite x = true) :
    Number.ofFloat x = if isIntegral x = true ∧ (toInt x).natAbs ≤ Number.maxSafe ∧
        ¬(signBit x = true ∧ parts x = (0, -1074)) then .int (toInt x) else .float x := by
  unfold Number.ofFloat
  rw [if_neg (by simp [not_isNaN_of_isFinite hfin]),
    if_neg (by simp [not_isInfinite_of_isFinite hfin])]

theorem shortestText_of_zero {x : Float} (hfin : isFinite x = true) (hz : parts x = (0, -1074)) :
    shortestText x = (if signBit x then "-" else "") ++ "0" := by
  unfold shortestText
  rw [if_neg (by simp [not_isNaN_of_isFinite hfin]),
    if_neg (by simp [not_isInfinite_of_isFinite hfin]), if_pos hz]

theorem shortestText_of_shortest {x : Float} (hfin : isFinite x = true)
    (hz : parts x ≠ (0, -1074)) {d : Nat} {t : Int} (hs : shortest x = (d, t)) :
    shortestText x = (if signBit x then "-" else "") ++ plainText d t := by
  unfold shortestText
  rw [if_neg (by simp [not_isNaN_of_isFinite hfin]),
    if_neg (by simp [not_isInfinite_of_isFinite hfin]), if_neg hz, hs]

/-! ## Whole doubles -/

theorem toInt_eq {x : Float} {m : Nat} {e : Int} (hp : parts x = (m, e)) :
    toInt x = if signBit x then -((m * 2 ^ e.toNat / 2 ^ (-e).toNat : Nat) : Int)
      else ((m * 2 ^ e.toNat / 2 ^ (-e).toNat : Nat) : Int) := by
  simp only [toInt, hp, Nat.pow_eq]

theorem natAbs_toInt {x : Float} {m : Nat} {e : Int} (hp : parts x = (m, e)) :
    (toInt x).natAbs = m * 2 ^ e.toNat / 2 ^ (-e).toNat := by
  rw [toInt_eq hp]
  split
  · rw [Int.natAbs_neg, Int.natAbs_natCast]
  · rw [Int.natAbs_natCast]

/-- The text of a whole number other than zero: its sign bit, then the decimal of its magnitude. -/
theorem toString_toInt {x : Float} (h0 : toInt x ≠ 0) :
    toString (toInt x) = (if signBit x then "-" else "") ++ toString (toInt x).natAbs := by
  rcases hp : parts x with ⟨m, e⟩
  rw [natAbs_toInt hp]
  rw [toInt_eq hp] at h0 ⊢
  generalize m * 2 ^ e.toNat / 2 ^ (-e).toNat = n at h0 ⊢
  rw [Int.toString_eq_repr, Int.repr_eq_if, Nat.toString_eq_ofList_toDigits,
    ← Nat.repr_eq_ofList_toDigits]
  by_cases hs : signBit x
  · simp only [hs, ↓reduceIte] at h0 ⊢
    rw [if_neg (by omega), neg_neg, Int.toNat_natCast]
  · simp only [hs, Bool.false_eq_true, ↓reduceIte, Int.natCast_nonneg, Int.toNat_natCast,
      String.empty_append]

theorem mantissa_ne_zero {x : Float} {m : Nat} {e : Int} (hp : parts x = (m, e))
    (hz : parts x ≠ (0, -1074)) : m ≠ 0 := by
  rintro rfl
  unfold parts at hp
  split at hp
  · simp only [Prod.mk.injEq] at hp
    exact hz (by rw [parts, if_pos ‹_›, hp.1])
  · simp only [Prod.mk.injEq, hidden_eq] at hp
    omega

/-- A whole double other than zero and at most `2^53 - 1` in magnitude is normal, with a
non-positive exponent, and its mantissa is its magnitude `V` shifted up by the exponent. -/
theorem parts_of_whole {x : Float} {m : Nat} {e : Int} (hp : parts x = (m, e))
    (hint : isIntegral x = true) (hsafe : (toInt x).natAbs ≤ Number.maxSafe) (hm0 : m ≠ 0) :
    e ≤ 0 ∧ expField x ≠ 0 ∧ m = (toInt x).natAbs * 2 ^ (-e).toNat ∧ 0 < (toInt x).natAbs := by
  have habs := natAbs_toInt hp
  simp only [isIntegral, hp, Nat.pow_eq, decide_eq_true_eq] at hint
  by_cases hexp : expField x = 0
  · -- a subnormal mantissa is below `2^52`, so only zero is a whole subnormal
    simp only [parts, hexp, if_true, Prod.mk.injEq] at hp
    obtain ⟨hm, he⟩ := hp
    have hfrac : m < 2 ^ 52 := by
      rw [← hm, fracField_eq]
      exact Nat.mod_lt _ (by decide)
    rcases hint with hneg | hdiv
    · omega
    · have hlt : m < 2 ^ (-e).toNat :=
        calc m < 2 ^ 52 := hfrac
          _ ≤ 2 ^ (-e).toNat := Nat.pow_le_pow_right (by norm_num) (by omega)
      rw [Nat.mod_eq_of_lt hlt] at hdiv
      exact absurd hdiv hm0
  · simp only [parts, hexp, if_false, Prod.mk.injEq] at hp
    obtain ⟨hm, he⟩ := hp
    have hhid : hidden ≤ m := by omega
    -- a positive exponent would make the magnitude at least `2^53`
    have he0 : e ≤ 0 := by
      by_contra hpos
      have hk : (-e).toNat = 0 := by omega
      rw [hk, pow_zero, Nat.div_one] at habs
      have h2 : 2 ≤ 2 ^ e.toNat := by
        calc 2 = 2 ^ 1 := by norm_num
          _ ≤ 2 ^ e.toNat := Nat.pow_le_pow_right (by norm_num) (by omega)
      have : hidden * 2 ≤ m * 2 ^ e.toNat := Nat.mul_le_mul hhid h2
      have := Number.maxSafe_lt
      omega
    have hk : e.toNat = 0 := by omega
    rw [hk, pow_zero, Nat.mul_one] at habs
    have hdvd : 2 ^ (-e).toNat ∣ m := by
      rcases hint with hnn | hmod
      · rw [show (-e).toNat = 0 by omega, pow_zero]
        exact one_dvd m
      · exact Nat.dvd_of_mod_eq_zero hmod
    have hmV : m = (toInt x).natAbs * 2 ^ (-e).toNat := by
      rw [habs, Nat.div_mul_cancel hdvd]
    refine ⟨he0, hexp, hmV, Nat.pos_of_ne_zero fun h0 => hm0 ?_⟩
    rw [hmV, h0, Nat.zero_mul]

/-! ## The rounding interval of a whole double -/

/-- The interval of a whole double `V` scaled by `2^s`: the double is `V · 2^s` units, and the
interval reaches one unit below it and `above` units above it, fewer than `2^s`. So it holds no
whole number but `V`. -/
structure Bounds.Whole (b : Bounds) (V s : Nat) : Prop where
  mid_eq : b.mid = V * 2 ^ s
  below_eq : b.below = 1
  above_pos : 0 < b.above
  above_lt : b.above < 2 ^ s
  scale_eq : b.scale = -(s : Int)

/-- An interval `2^c` times finer than the mantissa of a whole double, reaching one unit below
it and fewer than `2^c` above it. -/
theorem Bounds.whole_of_scaled {b : Bounds} {m V c : Nat} {e : Int} (he : e ≤ 0)
    (hm : m = V * 2 ^ (-e).toNat) (hmid : b.mid = 2 ^ c * m) (hbelow : b.below = 1)
    (hpos : 0 < b.above) (habove : b.above < 2 ^ c) (hscale : b.scale = e - c) :
    b.Whole V ((-e).toNat + c) where
  mid_eq := by rw [hmid, hm, pow_add]; ring
  below_eq := hbelow
  above_pos := hpos
  above_lt := lt_of_lt_of_le habove (Nat.pow_le_pow_right (by norm_num) (by omega))
  scale_eq := by rw [hscale]; push_cast; omega

theorem bounds_whole {x : Float} {m V : Nat} {e : Int} (hp : parts x = (m, e)) (he : e ≤ 0)
    (hm : m = V * 2 ^ (-e).toNat) :
    ∃ s, (bounds x).Whole V s := by
  unfold bounds
  simp only [hp]
  split
  · -- the smallest mantissa of a binade: a quarter unit below, half a unit above
    exact ⟨_, Bounds.whole_of_scaled (c := 2) he hm (by norm_num) rfl (by norm_num) (by norm_num) rfl⟩
  · exact ⟨_, Bounds.whole_of_scaled (c := 1) he hm (by norm_num) rfl (by norm_num) (by norm_num) rfl⟩

/-- Within less than one unit on either side of `V · D` only `V · D` itself is a multiple of `D`,
when the interval reaches above it and so `D ≥ 2`. -/
theorem eq_of_mul_near {V K D a : Nat} (ha0 : 0 < a) (ha : a < D) (hlo : V * D - 1 ≤ K * D)
    (hhi : K * D ≤ V * D + a) : K = V := by
  rcases Nat.lt_trichotomy K V with hlt | heq | hgt
  · have : (K + 1) * D ≤ V * D := Nat.mul_le_mul_right D hlt
    rw [Nat.add_mul, Nat.one_mul] at this
    omega
  · exact heq
  · have : (V + 1) * D ≤ K * D := Nat.mul_le_mul_right D hgt
    rw [Nat.add_mul, Nat.one_mul] at this
    omega

namespace Bounds.Whole

variable {b : Bounds} {V s : Nat}

theorem commonScales_eq (h : b.Whole V s) {t : Int} (ht : 0 ≤ t) :
    commonScales b t = (10 ^ t.toNat * 2 ^ s, 1) := by
  have h1 : (-t).toNat = 0 := by omega
  have h2 : b.scale.toNat = 0 := by rw [h.scale_eq]; omega
  have h3 : (-b.scale).toNat = s := by rw [h.scale_eq]; omega
  simp only [commonScales, Nat.pow_eq, h1, h2, h3, pow_zero, Nat.one_mul]

/-- A decimal `k · 10^t` with `t ≥ 0` reads back as the whole double only if it is `V`. -/
theorem eq_of_holds (h : b.Whole V s) {k : Nat} {t : Int} (ht : 0 ≤ t)
    (hk : b.holds k t = true) : k * 10 ^ t.toNat = V := by
  simp only [Bounds.holds, h.commonScales_eq ht, h.mid_eq, h.below_eq, Nat.mul_one] at hk
  have hin : V * 2 ^ s - 1 ≤ k * 10 ^ t.toNat * 2 ^ s ∧
      k * 10 ^ t.toNat * 2 ^ s ≤ V * 2 ^ s + b.above := by
    rw [← Nat.mul_assoc] at hk
    split at hk <;> simp only [decide_eq_true_eq] at hk <;> omega
  exact eq_of_mul_near h.above_pos h.above_lt hin.1 hin.2

theorem holds_self (h : b.Whole V s) (hV : 0 < V) : b.holds V 0 = true := by
  have hpos : 0 < V * 2 ^ s := by positivity
  simp only [Bounds.holds, h.commonScales_eq le_rfl, h.mid_eq, h.below_eq, Int.toNat_zero,
    pow_zero, Nat.one_mul, Nat.mul_one]
  have := h.above_pos
  split <;> simp only [decide_eq_true_eq] <;> omega

theorem floorAt_zero (h : b.Whole V s) : b.floorAt 0 = V := by
  simp only [Bounds.floorAt, h.commonScales_eq le_rfl, h.mid_eq, Int.toNat_zero, pow_zero,
    Nat.one_mul, Nat.mul_one]
  exact Nat.mul_div_cancel V (Nat.two_pow_pos s)

end Bounds.Whole

/-- The decimal exponent of a whole double is one less than the digit count of its magnitude. -/
theorem decimalExponent_whole {x : Float} {m V : Nat} {e : Int} (hp : parts x = (m, e))
    (he : e ≤ 0) (hm : m = V * 2 ^ (-e).toNat) (hV : 0 < V) :
    decimalExponent x = (digitCount V : Int) - 1 := by
  have hk : e.toNat = 0 := by omega
  have hnum : m * 10 ^ 400 / 2 ^ (-e).toNat = V * 10 ^ 400 := by
    rw [hm, Nat.mul_right_comm, Nat.mul_div_cancel _ (Nat.two_pow_pos _)]
  simp only [decimalExponent, ratio, hp, Nat.pow_eq, hk, pow_zero, Nat.mul_one, hnum,
    digitCount_mul_pow_ten hV]
  push_cast
  ring

/-! ## The search for the shortest decimal -/

/-- The decimal the search of `shortest` offers for `n` significant digits, when the double's
decimal exponent is `top`: a neighbour on the grid of `10^(top - n + 1)` that reads back. -/
def Bounds.candidate (b : Bounds) (top : Int) (n : Nat) : Option (Nat × Int) :=
  let t := top - n + 1
  let k := b.floorAt t
  let down := b.holds k t
  let up := b.holds (k + 1) t
  if down ∧ up then some (if b.upperNearer k t then k + 1 else k, t)
  else if down then some (k, t)
  else if up then some (k + 1, t)
  else none

/-- The search of `shortest`, its offers named: once it settles on `(d, t)` the result is `d · 10^t`
with its trailing zeros trimmed. -/
theorem shortest_of_findSome? {x : Float} {d : Nat} {t : Int}
    (h : ((List.range 17).map (· + 1)).findSome? ((bounds x).candidate (decimalExponent x)) =
      some (d, t)) :
    shortest x = trimZeros 400 d t := by
  unfold shortest
  dsimp only
  -- the search of `shortest` is the search over `candidate`, word for word
  erw [h]
  rfl

/-- Every decimal the search offers reads back as the double. -/
theorem Bounds.candidate_holds {b : Bounds} {top : Int} {n : Nat} {p : Nat × Int}
    (h : b.candidate top n = some p) : p.2 = top - n + 1 ∧ b.holds p.1 p.2 = true := by
  unfold Bounds.candidate at h
  dsimp only at h
  split_ifs at h with hboth hnear hdown hup <;> cases h
  · exact ⟨rfl, hboth.2⟩
  · exact ⟨rfl, hboth.1⟩
  · exact ⟨rfl, hdown⟩
  · exact ⟨rfl, hup⟩

/-- A search over `1, …, N` digits that succeeds at `L` stops at some `n ≤ L`. -/
theorem findSome?_range_succ {α : Type} {f : Nat → Option α} {N L : Nat} (hL1 : 1 ≤ L)
    (hLN : L ≤ N) (hf : (f L).isSome) :
    ∃ n, 1 ≤ n ∧ n ≤ L ∧ ((List.range N).map (· + 1)).findSome? f = f n ∧ (f n).isSome := by
  have hsplit : (List.range N).map (· + 1) =
      (List.range L).map (· + 1) ++ ((List.range (N - L)).map (L + ·)).map (· + 1) := by
    rw [← List.map_append, ← List.range_add, Nat.add_sub_cancel' hLN]
  have hmem : L ∈ (List.range L).map (· + 1) :=
    List.mem_map.mpr ⟨L - 1, List.mem_range.mpr (by omega), by omega⟩
  obtain ⟨a, ha⟩ := Option.isSome_iff_exists.mp (List.findSome?_isSome_iff.mpr ⟨L, hmem, hf⟩)
  obtain ⟨n, hn, hfn⟩ := List.exists_of_findSome?_eq_some ha
  obtain ⟨j, hj, rfl⟩ := List.mem_map.mp hn
  have hjL := List.mem_range.mp hj
  refine ⟨j + 1, by omega, by omega, ?_, by rw [hfn]; rfl⟩
  rw [hsplit, List.findSome?_append, ha, hfn, Option.some_or]

namespace Bounds.Whole

variable {b : Bounds} {V s : Nat}

/-- Up to the digit count of a whole double every decimal the search offers is the double. -/
theorem candidate_eq (h : b.Whole V s) {top : Int} {n : Nat} (hn : (n : Int) ≤ top + 1)
    {p : Nat × Int} (hp : b.candidate top n = some p) : 0 ≤ p.2 ∧ p.1 * 10 ^ p.2.toNat = V := by
  obtain ⟨ht, hk⟩ := Bounds.candidate_holds hp
  have ht0 : 0 ≤ p.2 := by omega
  exact ⟨ht0, h.eq_of_holds ht0 hk⟩

/-- At as many digits as the double has, the search offers the double itself. -/
theorem candidate_digitCount (h : b.Whole V s) (hV : 0 < V) (n : Nat) :
    b.candidate ((n : Int) - 1) n = some (V, 0) := by
  have ht : (n : Int) - 1 - n + 1 = 0 := by omega
  have hup : b.holds (V + 1) 0 = false := Bool.eq_false_iff.mpr fun hk => by
    have hV1 := h.eq_of_holds le_rfl hk
    rw [Int.toNat_zero, pow_zero, Nat.mul_one] at hV1
    omega
  simp only [Bounds.candidate, ht, h.floorAt_zero, h.holds_self hV, hup]
  rfl

end Bounds.Whole

/-- Trimming trailing zeros keeps the value `d · 10^t` and a positive digit string, and only
raises the exponent. -/
theorem trimZeros_spec (fuel d : Nat) (t : Int) (hd : 0 < d) :
    0 < (trimZeros fuel d t).1 ∧ t ≤ (trimZeros fuel d t).2 ∧
      (trimZeros fuel d t).1 * 10 ^ ((trimZeros fuel d t).2 - t).toNat = d := by
  induction fuel generalizing d t with
  | zero => simp [trimZeros, hd]
  | succ fuel ih =>
    unfold trimZeros
    split
    · next hz =>
      obtain ⟨h1, h2, h3⟩ := ih (d / 10) (t + 1) (by omega)
      refine ⟨h1, by omega, ?_⟩
      have hexp : ((trimZeros fuel (d / 10) (t + 1)).2 - t).toNat =
          ((trimZeros fuel (d / 10) (t + 1)).2 - (t + 1)).toNat + 1 := by omega
      rw [hexp, pow_succ, ← Nat.mul_assoc, h3]
      omega
    · exact ⟨hd, le_rfl, by simp⟩

/-- A decimal with no fraction is written as its digits followed by its zeros. -/
theorem plainText_of_whole {d : Nat} {t : Int} (hd : 0 < d) (ht : 0 ≤ t) :
    plainText d t = toString (d * 10 ^ t.toNat) := by
  have hlen : 0 < (Nat.toDigits 10 d).length := digitCount_pos d
  unfold plainText
  rw [if_neg (by omega), if_neg (by omega), Nat.toString_eq_ofList_toDigits,
    toDigits_mul_pow_ten hd]
  congr 3
  omega

/-- The shortest decimal of a whole double `V` below `10^16` is `V` itself, its trailing zeros
moved into the exponent. -/
theorem shortest_whole {x : Float} {m V : Nat} {e : Int} (hp : parts x = (m, e)) (he : e ≤ 0)
    (hm : m = V * 2 ^ (-e).toNat) (hV : 0 < V) (hV16 : V < 10 ^ 16) :
    ∃ d t, shortest x = (d, t) ∧ 0 < d ∧ 0 ≤ t ∧ d * 10 ^ t.toNat = V := by
  obtain ⟨s, hb⟩ := bounds_whole hp he hm
  have htop := decimalExponent_whole hp he hm hV
  have hL1 : 1 ≤ digitCount V := digitCount_pos V
  have hL : digitCount V ≤ 16 := (digitCount_le_iff (by norm_num)).mpr hV16
  have hlast : (bounds x).candidate (decimalExponent x) (digitCount V) = some (V, 0) := by
    rw [htop]
    exact hb.candidate_digitCount hV _
  -- the search stops at or before the digit count, on a decimal that is the double
  obtain ⟨n, -, hnL, hfind, hsome⟩ :=
    findSome?_range_succ (N := 17) hL1 (by omega)
      (show ((bounds x).candidate (decimalExponent x) (digitCount V)).isSome by rw [hlast]; rfl)
  obtain ⟨⟨d, t⟩, hdt⟩ := Option.isSome_iff_exists.mp hsome
  obtain ⟨ht, hdV⟩ := hb.candidate_eq (by rw [htop]; omega) hdt
  have hd : 0 < d := Nat.pos_of_ne_zero fun h0 => by
    rw [h0, Nat.zero_mul] at hdV
    omega
  obtain ⟨h1, h2, h3⟩ := trimZeros_spec 400 d t hd
  refine ⟨(trimZeros 400 d t).1, (trimZeros 400 d t).2, shortest_of_findSome? (hfind.trans hdt),
    h1, by omega, ?_⟩
  calc (trimZeros 400 d t).1 * 10 ^ (trimZeros 400 d t).2.toNat
      = (trimZeros 400 d t).1 * 10 ^ ((trimZeros 400 d t).2 - t).toNat * 10 ^ t.toNat := by
        rw [Nat.mul_assoc, ← pow_add]
        congr 2
        omega
    _ = V := by rw [h3, hdV]

/-- The shortest text of a finite, whole double of magnitude at most `2^53 - 1`, other than a
zero, is the decimal of the whole number it denotes. -/
theorem shortestText_of_whole {x : Float} (hfin : isFinite x = true) (hint : isIntegral x = true)
    (hsafe : (toInt x).natAbs ≤ Number.maxSafe) (hz : parts x ≠ (0, -1074)) :
    shortestText x = toString (toInt x) := by
  rcases hp : parts x with ⟨m, e⟩
  obtain ⟨he, -, hmV, hV⟩ := parts_of_whole hp hint hsafe (mantissa_ne_zero hp hz)
  have hV16 : (toInt x).natAbs < 10 ^ 16 := by
    simp only [Number.maxSafe, Nat.pow_eq] at hsafe
    omega
  obtain ⟨d, t, hs, hd, ht, hdV⟩ := shortest_whole hp he hmV hV hV16
  rw [toString_toInt (Int.natAbs_pos.mp hV), ← hdV, ← plainText_of_whole hd ht,
    shortestText_of_shortest hfin hz hs]

/-! ## Agreement with the text of numbers -/

/-- A finite double other than a zero is written by its normal form as its shortest text. -/
theorem toText_ofFloat_of_finite {x : Float} (hfin : isFinite x = true)
    (hz : parts x ≠ (0, -1074)) : (Number.ofFloat x).toText = shortestText x := by
  rw [ofFloat_of_isFinite hfin]
  split
  · next hwhole => exact (shortestText_of_whole hfin hwhole.1 hwhole.2.1 hz).symm
  · simp only [Number.toText, hz, ↓reduceIte]

/-- A zero is `+0` in normal form, and `-0` stays a double. -/
theorem ofFloat_of_zero {x : Float} (hfin : isFinite x = true) (hz : parts x = (0, -1074)) :
    Number.ofFloat x = if signBit x then .float x else .int 0 := by
  have hint : isIntegral x = true := by
    simp only [isIntegral, hz, Nat.zero_mod, or_true, decide_true]
  have h0 : toInt x = 0 := by
    simp only [toInt_eq hz, Nat.zero_mul, Nat.zero_div, Nat.cast_zero, neg_zero, ite_self]
  rw [ofFloat_of_isFinite hfin]
  cases signBit x <;> simp [hint, h0, hz]

/-- The shortest text of a double and the text of the number it is normalised to agree on every
double but the two infinities and `-0`. -/
theorem shortestText_eq_toText_ofFloat_iff (x : Float) :
    shortestText x = (Number.ofFloat x).toText ↔
      isInfinite x = false ∧ ¬(signBit x = true ∧ parts x = (0, -1074)) := by
  by_cases hnan : isNaN x = true
  · -- a NaN has the top exponent, so it is neither infinite nor a zero
    have hexp : expField x = 2047 := by
      simp only [isNaN, decide_eq_true_eq] at hnan
      exact hnan.1
    have hinf : isInfinite x = false := by
      simp only [isNaN, isInfinite, decide_eq_true_eq, decide_eq_false_iff_not] at hnan ⊢
      omega
    have hz : parts x ≠ (0, -1074) := by
      rw [parts, if_neg (by omega)]
      intro h
      have hm := congrArg Prod.fst h
      simp only [hidden_eq] at hm
      omega
    simp only [shortestText, Number.ofFloat, hnan, ↓reduceIte, Number.toText, hinf, hz,
      and_false, not_false_eq_true, and_self]
  · rw [Bool.not_eq_true] at hnan
    by_cases hinf : isInfinite x = true
    · have hne : shortestText x ≠ (Number.ofFloat x).toText := by
        simp only [shortestText, Number.ofFloat, hnan, hinf, Bool.false_eq_true, ↓reduceIte]
        cases signBit x <;> decide
      simp only [hne, hinf, Bool.true_eq_false, false_and]
    · rw [Bool.not_eq_true] at hinf
      have hfin := isFinite_of_not hnan hinf
      by_cases hz : parts x = (0, -1074)
      · -- `+0` is written `0` both ways, `-0` is `-0` against `0`
        rw [ofFloat_of_zero hfin hz, shortestText_of_zero hfin hz]
        cases hs : signBit x
        · refine iff_of_true ?_ ⟨hinf, by simp⟩
          simp only [Bool.false_eq_true, ↓reduceIte, Number.toText]
          decide
        · refine iff_of_false ?_ (by simp [hz])
          simp only [↓reduceIte, Number.toText, hz]
          decide
      · simp only [toText_ofFloat_of_finite hfin hz, hinf, hz, and_false, not_false_eq_true,
          and_self]

end EcmaLite.Double
