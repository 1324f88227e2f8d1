import Mathlib
import EcmaLite.Proofs.ShortestWhole

/-!
# Correct rounding of ratios

`ofRatio false num den` rounds the ratio `num / den` to a double: it takes the exponent
`E = max (⌊log₂ (num / den)⌋ - 52) (-1074)`, rounds `num / den / 2^E` to a whole mantissa with
ties to even (`roundHalfEven`), and carries a mantissa of `2^53` into the exponent.

The reals that round to a finite double `x` other than zero form its interval `bounds x`
(`Bounds.lo`, `Bounds.hi`, `Bounds.Contains`), and `holds`, the integer test the search for
the shortest decimal runs, is membership in it (`Bounds.holds_iff`). The main result is that
the rounding is correct on that interval: every positive ratio in it rounds to `x`
(`ofRatio_of_contains`). Within half a unit of the mantissa the rounding step keeps it
(`ofRatio_of_near`); the lower quarter unit below a power of two is rounded at the exponent
below, to `2^53`, and carried back (`ofRatio_of_near_carry`).
-/

namespace EcmaLite.Double

/-- A power of a nonzero rational at an integer exponent, as a quotient of natural powers. -/
theorem zpow_eq_div_pow (a : ℚ) (t : ℤ) : a ^ t = a ^ t.toNat / a ^ (-t).toNat := by
  rcases le_total 0 t with ht | ht
  · obtain ⟨n, rfl⟩ := Int.eq_ofNat_of_zero_le ht
    simp
  · obtain ⟨n, hn⟩ := Int.eq_ofNat_of_zero_le (neg_nonneg.mpr ht)
    rw [show t = -n by omega]
    simp [zpow_neg]

/-- `floorLog2` is `⌊log₂ (num / den)⌋`: the ratio lies in `[2^L, 2^(L + 1))`. Its test
compares the ratio with `2^k` for the difference `k` of the two logarithms, which is the answer
or one more. -/
theorem floorLog2_spec {num den : ℕ} (hnum : 0 < num) (hden : 0 < den) :
    (2 : ℚ) ^ floorLog2 num den ≤ num / den ∧
      (num / den : ℚ) < 2 ^ (floorLog2 num den + 1) := by
  have ha1 : 2 ^ num.log2 ≤ num := Nat.log2_self_le (by omega)
  have ha2 : num < 2 ^ (num.log2 + 1) := Nat.lt_log2_self
  have hc1 : 2 ^ den.log2 ≤ den := Nat.log2_self_le (by omega)
  have hc2 : den < 2 ^ (den.log2 + 1) := Nat.lt_log2_self
  have hdq : (0 : ℚ) < den := by exact_mod_cast hden
  -- the powers of two around `num` and `den`, as rationals
  have qa1 : (2 : ℚ) ^ (num.log2 : ℤ) ≤ num := by rw [zpow_natCast]; exact_mod_cast ha1
  have qa2 : (num : ℚ) < 2 ^ ((num.log2 : ℤ) + 1) := by
    rw [← Nat.cast_one, ← Nat.cast_add, zpow_natCast]; exact_mod_cast ha2
  have qc1 : (2 : ℚ) ^ (den.log2 : ℤ) ≤ den := by rw [zpow_natCast]; exact_mod_cast hc1
  have qc2 : (den : ℚ) < 2 ^ ((den.log2 : ℤ) + 1) := by
    rw [← Nat.cast_one, ← Nat.cast_add, zpow_natCast]; exact_mod_cast hc2
  set k : ℤ := (num.log2 : ℤ) - den.log2 with hk
  -- the test of `floorLog2` compares `num / den` with `2^k`
  have htest : num * 2 ^ (-k).toNat ≥ den * 2 ^ k.toNat ↔ (2 : ℚ) ^ k ≤ num / den := by
    rw [zpow_eq_div_pow, div_le_div_iff₀ (by positivity) hdq, ge_iff_le,
      ← Nat.cast_le (α := ℚ)]
    push_cast
    constructor <;> intro h <;> linarith
  have hpow : ∀ i j : ℤ, (2 : ℚ) ^ (i - j) = 2 ^ i / 2 ^ j :=
    fun i j => zpow_sub₀ two_ne_zero i j
  unfold floorLog2
  dsimp only
  split
  · next h =>
    refine ⟨htest.mp h, ?_⟩
    -- `num < 2^(a+1)` and `2^c ≤ den`
    rw [show k + 1 = ((num.log2 : ℤ) + 1) - den.log2 by omega, hpow,
      div_lt_div_iff₀ hdq (by positivity)]
    have := mul_lt_mul_of_pos_of_nonneg' qa2 qc1 (by positivity) (by positivity)
    linarith
  · next h =>
    refine ⟨?_, by simpa using not_le.mp fun h' => h (htest.mpr h')⟩
    -- `2^a ≤ num` and `den < 2^(c+1)`
    rw [show k - 1 = (num.log2 : ℤ) - ((den.log2 : ℤ) + 1) by omega, hpow,
      div_le_div_iff₀ (by positivity) hdq]
    have := mul_le_mul qa1 qc2.le (by positivity) (by positivity)
    linarith

/-- `floorLog2` is the one exponent `L` with `2^L ≤ num / den < 2^(L + 1)`. -/
theorem floorLog2_eq {num den : ℕ} (hnum : 0 < num) (hden : 0 < den) {L : ℤ}
    (h1 : (2 : ℚ) ^ L ≤ num / den) (h2 : (num / den : ℚ) < 2 ^ (L + 1)) :
    floorLog2 num den = L := by
  obtain ⟨g1, g2⟩ := floorLog2_spec hnum hden
  by_contra hne
  rcases lt_or_gt_of_ne hne with hlt | hgt
  · have : (2 : ℚ) ^ (floorLog2 num den + 1) ≤ 2 ^ L :=
      zpow_le_zpow_right₀ (by norm_num) (by omega)
    linarith
  · have : (2 : ℚ) ^ (L + 1) ≤ 2 ^ floorLog2 num den :=
      zpow_le_zpow_right₀ (by norm_num) (by omega)
    linarith

/-- `N / D` rounded to a whole number, a tie going to the even one: the rounding step of
`ofRatio`. -/
def roundHalfEven (N D : ℕ) : ℕ :=
  if 2 * (N % D) > D ∨ (2 * (N % D) = D ∧ N / D % 2 = 1) then N / D + 1 else N / D

/-- Within half a unit of `q`, `N / D` rounds to `q`; at exactly half a unit only when `q` is
even. -/
theorem roundHalfEven_eq {N D q : ℕ} (hD : 0 < D) (hq : 0 < q)
    (hlo : 2 * (q * D) ≤ 2 * N + D) (hhi : 2 * N ≤ 2 * (q * D) + D)
    (htie : 2 * N + D = 2 * (q * D) ∨ 2 * N = 2 * (q * D) + D → q % 2 = 0) :
    roundHalfEven N D = q := by
  have hdm := Nat.div_add_mod N D
  unfold roundHalfEven
  rcases Nat.lt_or_ge N (q * D) with h | h
  · -- `N` is `q - 1` units and at least half a unit more: it rounds up
    have hqD : D ≤ q * D := Nat.le_mul_of_pos_left D hq
    have hQ : N / D = q - 1 := Nat.div_eq_of_lt_le (by rw [Nat.sub_one_mul]; omega)
      (by rw [Nat.sub_add_cancel hq]; exact h)
    rw [hQ, Nat.mul_comm, Nat.sub_one_mul] at hdm
    rw [hQ]
    split
    · exact Nat.sub_add_cancel hq
    · next hno =>
      exfalso
      apply hno
      by_cases hhalf : 2 * (N % D) = D
      · have heven := htie (.inl (by omega))
        exact .inr ⟨hhalf, by omega⟩
      · exact .inl (by omega)
  · -- `N` is `q` units and at most half a unit more: it stays
    have hQ : N / D = q := Nat.div_eq_of_lt_le h (by rw [Nat.succ_mul]; omega)
    rw [hQ, Nat.mul_comm] at hdm
    rw [hQ]
    split
    · next hup =>
      exfalso
      rcases hup with hup | ⟨hhalf, hodd⟩
      · omega
      · have heven := htie (.inr (by omega))
        omega
    · rfl

example : roundHalfEven 5 2 = 2 ∧ roundHalfEven 7 2 = 4 ∧ roundHalfEven 8 3 = 3 := by decide

/-- `ofRatio` scales the ratio to the exponent its size calls for and rounds there; when the
rounded mantissa stays below `2^53` and the exponent in range, the result is its encoding. -/
theorem ofRatio_of_round {num den : ℕ} (hnum : 0 < num) {E : ℤ}
    (hE : max (floorLog2 num den - 52) (-1074) = E) {q : ℕ}
    (hq : roundHalfEven (num * Nat.pow 2 (-E).toNat) (den * Nat.pow 2 E.toNat) = q)
    (hq2 : q ≠ 2 * hidden) (hE2 : E ≤ 971) : ofRatio false num den = encode false q E := by
  unfold ofRatio
  rw [if_neg (by omega)]
  dsimp only
  rw [hE]
  unfold roundHalfEven at hq
  rw [hq, if_neg hq2, if_neg (by omega)]

/-- When the rounded mantissa reaches `2^53` it is carried into the exponent. -/
theorem ofRatio_of_round_carry {num den : ℕ} (hnum : 0 < num) {E : ℤ}
    (hE : max (floorLog2 num den - 52) (-1074) = E)
    (hq : roundHalfEven (num * Nat.pow 2 (-E).toNat) (den * Nat.pow 2 E.toNat) = 2 * hidden)
    (hE2 : E + 1 ≤ 971) : ofRatio false num den = encode false hidden (E + 1) := by
  unfold ofRatio
  rw [if_neg (by omega)]
  dsimp only
  rw [hE]
  unfold roundHalfEven at hq
  rw [hq, if_pos rfl, if_neg (by omega)]

/-- Within half a unit of `q`, `N / D` rounds to `q`, at exactly half a unit only when `q` is
even: the same, stated on the rational `N / D`. -/
theorem roundHalfEven_eq_of_near {N D q : ℕ} (hD : 0 < D) (hq : 0 < q)
    (hlo : (q : ℚ) - 1 / 2 ≤ N / D) (hhi : (N / D : ℚ) ≤ q + 1 / 2)
    (htie : (N / D : ℚ) = q - 1 / 2 ∨ (N / D : ℚ) = q + 1 / 2 → q % 2 = 0) :
    roundHalfEven N D = q := by
  have hDq : (0 : ℚ) < D := by exact_mod_cast hD
  rw [le_div_iff₀ hDq] at hlo
  rw [div_le_iff₀ hDq] at hhi
  apply roundHalfEven_eq hD hq
  · have : (2 * (q * D) : ℚ) ≤ 2 * N + D := by linarith
    exact_mod_cast this
  · have : (2 * N : ℚ) ≤ 2 * (q * D) + D := by linarith
    exact_mod_cast this
  · intro h
    apply htie
    rcases h with h | h
    · have h' : (2 * N + D : ℚ) = 2 * (q * D) := by exact_mod_cast h
      left
      field_simp
      linarith
    · have h' : (2 * N : ℚ) = 2 * (q * D) + D := by exact_mod_cast h
      right
      field_simp
      linarith

/-- The ratio `ofRatio` rounds at exponent `E`, as a rational: `num / den` over `2^E`. -/
theorem scaled_div (num den : ℕ) (hden : 0 < den) (E : ℤ) :
    ((num * Nat.pow 2 (-E).toNat : ℕ) : ℚ) / ((den * Nat.pow 2 E.toNat : ℕ) : ℚ) =
      (num / den : ℚ) / 2 ^ E := by
  have hdq : (den : ℚ) ≠ 0 := by exact_mod_cast hden.ne'
  rw [zpow_eq_div_pow 2 E]
  push_cast [Nat.pow_eq]
  field_simp

/-- Rounding at exponent `E` by its rational bounds: within half a unit of `q · 2^E`, and at a
half only for an even `q`, the scaled ratio rounds to `q`. -/
theorem roundHalfEven_scaled {num den q : ℕ} (hden : 0 < den) (hq : 0 < q) (E : ℤ)
    (hlo : ((q : ℚ) - 1 / 2) * 2 ^ E ≤ num / den)
    (hhi : (num / den : ℚ) ≤ (q + 1 / 2) * 2 ^ E)
    (htie : (num / den : ℚ) = (q - 1 / 2) * 2 ^ E ∨ (num / den : ℚ) = (q + 1 / 2) * 2 ^ E →
      q % 2 = 0) :
    roundHalfEven (num * Nat.pow 2 (-E).toNat) (den * Nat.pow 2 E.toNat) = q := by
  have hp : (0 : ℚ) < 2 ^ E := zpow_pos two_pos E
  apply roundHalfEven_eq_of_near (by rw [Nat.pow_eq]; positivity) hq
  · rw [scaled_div num den hden, le_div_iff₀ hp]; exact hlo
  · rw [scaled_div num den hden, div_le_iff₀ hp]; exact hhi
  · rw [scaled_div num den hden, div_eq_iff hp.ne', div_eq_iff hp.ne']; exact htie

/-- A ratio below `2^L` has its logarithm below `L`. -/
theorem floorLog2_lt {num den : ℕ} (hnum : 0 < num) (hden : 0 < den) {L : ℤ}
    (h : (num / den : ℚ) < 2 ^ L) : floorLog2 num den < L := by
  have := lt_of_le_of_lt (floorLog2_spec hnum hden).1 h
  exact (zpow_lt_zpow_iff_right₀ one_lt_two).mp this

/-- A ratio within half a unit of `m · 2^e`, for a valid mantissa and exponent, rounds to that
double. The exponent `ofRatio` picks is `e` when the ratio is at least `2^(52 + e)`, and the
least one `-1074` otherwise. -/
theorem ofRatio_of_near {num den m : ℕ} {e : ℤ} (hnum : 0 < num) (hden : 0 < den)
    (hm0 : 0 < m) (hm : m < 2 * hidden) (he2 : e ≤ 971)
    (hexp : e = -1074 ∨ -1074 < e ∧ (2 : ℚ) ^ (52 + e) ≤ num / den)
    (hlo : ((m : ℚ) - 1 / 2) * 2 ^ e ≤ num / den)
    (hhi : (num / den : ℚ) ≤ (m + 1 / 2) * 2 ^ e)
    (htie : (num / den : ℚ) = (m - 1 / 2) * 2 ^ e ∨ (num / den : ℚ) = (m + 1 / 2) * 2 ^ e →
      m % 2 = 0) :
    ofRatio false num den = encode false m e := by
  have htop : (num / den : ℚ) < 2 ^ (52 + e + 1) := by
    have hm1 : (m : ℚ) + 1 ≤ 2 ^ 53 := by
      have : m + 1 ≤ 2 ^ 53 := by rw [hidden_eq] at hm; omega
      exact_mod_cast this
    calc (num / den : ℚ) ≤ (m + 1 / 2) * 2 ^ e := hhi
      _ < 2 ^ 53 * 2 ^ e := mul_lt_mul_of_pos_right (by linarith) (zpow_pos two_pos e)
      _ = 2 ^ (52 + e + 1) := by
        rw [show 52 + e + 1 = (53 : ℤ) + e by ring, zpow_add₀ two_ne_zero]; norm_cast
  have hE : max (floorLog2 num den - 52) (-1074) = e := by
    rcases hexp with rfl | ⟨he1, hbot⟩
    · have := floorLog2_lt hnum hden htop
      omega
    · rw [floorLog2_eq hnum hden hbot htop]
      omega
  exact ofRatio_of_round hnum hE (roundHalfEven_scaled hden hm0 e hlo hhi htie) (by omega) he2

/-- A ratio in the lower quarter unit below the least double of a binade, `2^52 · 2^e` with
`e` above the least exponent, rounds up to it: at the exponent below it the mantissa rounds to
`2^53` and is carried. -/
theorem ofRatio_of_near_carry {num den : ℕ} {e : ℤ} (hnum : 0 < num) (hden : 0 < den)
    (he1 : -1074 < e) (he2 : e ≤ 971)
    (hlo : ((hidden : ℚ) - 1 / 4) * 2 ^ e ≤ num / den)
    (hhi : (num / den : ℚ) < hidden * 2 ^ e) :
    ofRatio false num den = encode false hidden e := by
  have hh : (hidden : ℚ) = 2 ^ 52 := by rw [hidden_eq]; norm_num
  have hsplit : (2 : ℚ) ^ e = 2 * 2 ^ (e - 1) := by
    rw [zpow_sub_one₀ two_ne_zero]; ring
  rw [hsplit] at hlo hhi
  have hE : max (floorLog2 num den - 52) (-1074) = e - 1 := by
    have hbot : (2 : ℚ) ^ (51 + e) ≤ num / den := by
      calc (2 : ℚ) ^ (51 + e) = (2 ^ 52 - 2 ^ 51) * (2 * 2 ^ (e - 1)) := by
            rw [show 51 + e = (52 : ℤ) + (e - 1) by ring, zpow_add₀ two_ne_zero]; norm_num; ring
        _ ≤ _ := by rw [← hh]; exact le_trans (by gcongr; norm_num) hlo
    have htop : (num / den : ℚ) < 2 ^ (51 + e + 1) := by
      calc (num / den : ℚ) < hidden * (2 * 2 ^ (e - 1)) := hhi
        _ = 2 ^ (51 + e + 1) := by
          rw [hh, show 51 + e + 1 = (53 : ℤ) + (e - 1) by ring, zpow_add₀ two_ne_zero]
          norm_num
          ring
    rw [floorLog2_eq hnum hden hbot htop]
    omega
  have hq : roundHalfEven (num * Nat.pow 2 (-(e - 1)).toNat) (den * Nat.pow 2 (e - 1).toNat) =
      2 * hidden := by
    apply roundHalfEven_scaled hden (by rw [hidden_eq]; omega) (e - 1)
    · push_cast; linarith
    · push_cast; linarith
    · intro _; omega
  have := ofRatio_of_round_carry hnum hE hq (by omega)
  rwa [sub_add_cancel] at this

/-! ## The rounding interval as rationals -/

/-- The lower end of the interval of reals that read back as the double of `b`. -/
def Bounds.lo (b : Bounds) : ℚ := ((b.mid - b.below : ℕ) : ℚ) * 2 ^ b.scale

/-- The upper end of the interval. -/
def Bounds.hi (b : Bounds) : ℚ := ((b.mid + b.above : ℕ) : ℚ) * 2 ^ b.scale

/-- Whether a rational lies in the interval, its ends counted when the interval is closed. -/
def Bounds.Contains (b : Bounds) (v : ℚ) : Prop :=
  if b.closed then b.lo ≤ v ∧ v ≤ b.hi else b.lo < v ∧ v < b.hi

theorem Bounds.Contains.lo_le {b : Bounds} {v : ℚ} (h : b.Contains v) : b.lo ≤ v := by
  unfold Bounds.Contains at h
  split at h
  · exact h.1
  · exact h.1.le

theorem Bounds.Contains.le_hi {b : Bounds} {v : ℚ} (h : b.Contains v) : v ≤ b.hi := by
  unfold Bounds.Contains at h
  split at h
  · exact h.2
  · exact h.2.le

/-- Only a closed interval contains its ends. -/
theorem Bounds.Contains.closed_of_end {b : Bounds} {v : ℚ} (h : b.Contains v)
    (hend : v = b.lo ∨ v = b.hi) : b.closed = true := by
  unfold Bounds.Contains at h
  split at h
  · assumption
  · rcases hend with rfl | rfl
    · exact absurd h.1 (lt_irrefl _)
    · exact absurd h.2 (lt_irrefl _)

/-- The two scales of `commonScales` are `10^t` and `2^scale` times one positive factor, the
powers of negative exponent moved to the other side. -/
theorem commonScales_cast (b : Bounds) (t : ℤ) :
    ((commonScales b t).1 : ℚ) = 10 ^ t * (10 ^ (-t).toNat * 2 ^ (-b.scale).toNat) ∧
      ((commonScales b t).2 : ℚ) = 2 ^ b.scale * (10 ^ (-t).toNat * 2 ^ (-b.scale).toNat) := by
  simp only [commonScales]
  push_cast [Nat.pow_eq]
  rw [zpow_eq_div_pow 10 t, zpow_eq_div_pow 2 b.scale]
  constructor <;> field_simp

/-- Cross-multiplied by `commonScales`, a comparison of naturals is the comparison of the
decimal `k · 10^t` with the binary `n · 2^scale`. -/
theorem commonScales_le_iff (b : Bounds) (t : ℤ) (k n : ℕ) :
    k * (commonScales b t).1 ≤ n * (commonScales b t).2 ↔
      (k : ℚ) * 10 ^ t ≤ n * 2 ^ b.scale := by
  obtain ⟨h1, h2⟩ := commonScales_cast b t
  rw [← Nat.cast_le (α := ℚ)]
  push_cast
  rw [h1, h2, ← mul_assoc (k : ℚ), ← mul_assoc (n : ℚ)]
  exact mul_le_mul_iff_of_pos_right
    (show (0 : ℚ) < 10 ^ (-t).toNat * 2 ^ (-b.scale).toNat by positivity)

theorem commonScales_ge_iff (b : Bounds) (t : ℤ) (k n : ℕ) :
    n * (commonScales b t).2 ≤ k * (commonScales b t).1 ↔
      (n : ℚ) * 2 ^ b.scale ≤ k * 10 ^ t := by
  obtain ⟨h1, h2⟩ := commonScales_cast b t
  rw [← Nat.cast_le (α := ℚ)]
  push_cast
  rw [h1, h2, ← mul_assoc (n : ℚ), ← mul_assoc (k : ℚ)]
  exact mul_le_mul_iff_of_pos_right
    (show (0 : ℚ) < 10 ^ (-t).toNat * 2 ^ (-b.scale).toNat by positivity)

/-- The test of `holds` is membership of the decimal in the interval. -/
theorem Bounds.holds_iff (b : Bounds) (k : ℕ) (t : ℤ) :
    b.holds k t = true ↔ b.Contains (k * 10 ^ t) := by
  unfold Bounds.holds Bounds.Contains Bounds.lo Bounds.hi
  dsimp only
  split
  · simp only [decide_eq_true_eq, commonScales_ge_iff, commonScales_le_iff]
  · simp only [decide_eq_true_eq, ← not_le, commonScales_ge_iff, commonScales_le_iff]

/-! ## The interval of a finite double -/

/-- The mantissa and exponent of a finite double are in range: a mantissa below `2^53`, at least
`2^52` unless the exponent is the least one, and an exponent from `-1074` to `971`. -/
theorem parts_valid {x : Float} (hfin : isFinite x = true) {m : ℕ} {e : ℤ}
    (hp : parts x = (m, e)) :
    m < 2 * hidden ∧ (hidden ≤ m ∨ e = -1074) ∧ -1074 ≤ e ∧ e ≤ 971 := by
  have hf : fracField x < hidden := by rw [fracField_eq, hidden_eq]; exact Nat.mod_lt _ (by decide)
  have hx : expField x < 2047 := by
    simp only [isFinite, decide_eq_true_eq] at hfin
    have : expField x < 2048 := by rw [expField_eq]; exact Nat.mod_lt _ (by decide)
    omega
  unfold parts at hp
  split at hp <;> simp only [Prod.mk.injEq] at hp <;> omega

/-- The interval of a double has a shorter lower side exactly when its mantissa is `2^52`. -/
theorem bounds_of_parts {x : Float} {m : ℕ} {e : ℤ} (hp : parts x = (m, e)) :
    bounds x = if m = hidden then ⟨4 * m, 1, 2, e - 2, m % 2 = 0⟩
      else ⟨2 * m, 1, 1, e - 1, m % 2 = 0⟩ := by
  have hf : fracField x < hidden := by rw [fracField_eq, hidden_eq]; exact Nat.mod_lt _ (by decide)
  have hiff : (expField x ≠ 0 ∧ fracField x = 0) ↔ m = hidden := by
    unfold parts at hp
    split at hp <;> simp only [Prod.mk.injEq] at hp <;> omega
  simp only [bounds, hp]
  by_cases hb : m = hidden
  · rw [if_pos (hiff.mpr hb), if_pos hb]
  · rw [if_neg (mt hiff.mp hb), if_neg hb]

/-- The ends of the interval of a mantissa `m` other than `2^52`: half a unit on either side. -/
theorem lo_regular {m : ℕ} (hm : 0 < m) (e : ℤ) (c : Bool) :
    Bounds.lo ⟨2 * m, 1, 1, e - 1, c⟩ = ((m : ℚ) - 1 / 2) * 2 ^ e := by
  simp only [Bounds.lo]
  rw [Nat.cast_sub (by omega), zpow_sub_one₀ two_ne_zero]
  push_cast
  ring

theorem hi_regular (m : ℕ) (e : ℤ) (c : Bool) :
    Bounds.hi ⟨2 * m, 1, 1, e - 1, c⟩ = ((m : ℚ) + 1 / 2) * 2 ^ e := by
  simp only [Bounds.hi]
  rw [zpow_sub_one₀ two_ne_zero]
  push_cast
  ring

/-- The ends of the interval of the mantissa `2^52`: a quarter unit below, half a unit above. -/
theorem lo_boundary {m : ℕ} (hm : 0 < m) (e : ℤ) (c : Bool) :
    Bounds.lo ⟨4 * m, 1, 2, e - 2, c⟩ = ((m : ℚ) - 1 / 4) * 2 ^ e := by
  simp only [Bounds.lo]
  rw [Nat.cast_sub (by omega), zpow_sub₀ two_ne_zero]
  push_cast
  ring

theorem hi_boundary (m : ℕ) (e : ℤ) (c : Bool) :
    Bounds.hi ⟨4 * m, 1, 2, e - 2, c⟩ = ((m : ℚ) + 1 / 2) * 2 ^ e := by
  simp only [Bounds.hi]
  rw [zpow_sub₀ two_ne_zero]
  push_cast
  ring

/-- Correct rounding: every positive ratio in the interval of a finite double other than zero
rounds to that double. -/
theorem ofRatio_of_contains {x : Float} (hfin : isFinite x = true) (hnz : parts x ≠ (0, -1074))
    {num den : ℕ} (hnum : 0 < num) (hden : 0 < den) (hc : (bounds x).Contains (num / den)) :
    ofRatio false num den = encode false (parts x).1 (parts x).2 := by
  rcases hp : parts x with ⟨m, e⟩
  have hm0 : 0 < m := Nat.pos_of_ne_zero (mantissa_ne_zero hp hnz)
  obtain ⟨hm, hnorm, he1, he2⟩ := parts_valid hfin hp
  have hpow : (0 : ℚ) < 2 ^ e := zpow_pos two_pos e
  have hlift : (2 : ℚ) ^ (52 + e) = hidden * 2 ^ e := by
    rw [zpow_add₀ two_ne_zero, hidden_eq]; norm_num
  rw [bounds_of_parts hp] at hc
  split at hc
  · next hb =>
    -- the lower side is a quarter unit; it rounds up to `x` from the binade below
    have hlo := hc.lo_le
    have hhi := hc.le_hi
    rw [lo_boundary hm0] at hlo
    rw [hi_boundary] at hhi
    have heven : m % 2 = 0 := by rw [hb, hidden_eq]
    by_cases hv : (m : ℚ) * 2 ^ e ≤ num / den
    · refine ofRatio_of_near hnum hden hm0 hm he2 ?_ (by nlinarith) hhi fun _ => heven
      rcases eq_or_lt_of_le he1 with he | he
      · exact .inl he.symm
      · exact .inr ⟨he, by rw [hlift, ← hb]; exact hv⟩
    · rcases eq_or_lt_of_le he1 with he | he
      · exact ofRatio_of_near hnum hden hm0 hm he2 (.inl he.symm) (by nlinarith) hhi
          fun _ => heven
      · rw [hb] at hlo hv ⊢
        exact ofRatio_of_near_carry hnum hden he he2 hlo (not_le.mp hv)
  · next hb =>
    have hlo := hc.lo_le
    have hhi := hc.le_hi
    rw [lo_regular hm0] at hlo
    rw [hi_regular] at hhi
    refine ofRatio_of_near hnum hden hm0 hm he2 ?_ hlo hhi fun hend => ?_
    · rcases eq_or_lt_of_le he1 with he | he
      · exact .inl he.symm
      · -- above the least exponent the mantissa is normal, and here above `2^52`
        refine .inr ⟨he, ?_⟩
        have hgt : (hidden : ℚ) + 1 ≤ m := by
          have : hidden + 1 ≤ m := by
            rcases hnorm with h | h
            · omega
            · omega
          exact_mod_cast this
        rw [hlift]
        nlinarith
    · have := hc.closed_of_end (by rw [lo_regular hm0, hi_regular]; exact hend)
      simpa using this

end EcmaLite.Double
