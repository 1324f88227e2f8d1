import Mathlib
import EcmaLite.Proofs.CorrectRounding

/-!
# The shortest decimal reads back

`shortest x` searches the decimals of `1, 2, …, 17` significant digits around a finite double
`x` for one in its rounding interval and trims the trailing zeros of what it finds. This module
proves that the search never comes back empty-handed and that what it returns rounds back to
`x` (`ofDecimal_shortest`).

The interval of `x = m · 2^e` is wider than `m · 2^e / 10^16` (`Bounds.Around`), and the decimal
exponent `top` the search starts from has `10^top ≤ x`. So on the grid of seventeen-digit
decimals, of unit `10^(top - 16)`, one of the two neighbours of `x` lies inside the interval
(`candidate_seventeen`). Every decimal the search offers lies in the interval, and trimming
zeros keeps its value (`shortest_contains`). A decimal in the interval is between `10^(-401)`
and `10^400`, so `ofDecimal` rounds its exact ratio, and correct rounding
(`ofRatio_of_contains`) gives `x` back.
-/

namespace EcmaLite.Double

/-- Powers of two against powers of ten, through `2^3 ≤ 10`. -/
theorem two_pow_le_ten_pow {k j : ℕ} (hk : k ≤ 3 * j) : 2 ^ k ≤ 10 ^ j :=
  calc 2 ^ k ≤ 2 ^ (3 * j) := Nat.pow_le_pow_right (by norm_num) hk
    _ = (2 ^ 3) ^ j := Nat.pow_mul 2 3 j
    _ ≤ 10 ^ j := Nat.pow_le_pow_left (by norm_num) j

theorem two_zpow_le_ten_pow {k : ℤ} {j : ℕ} (hk : k ≤ 3 * j) : (2 : ℚ) ^ k ≤ 10 ^ j := by
  rcases le_or_gt 0 k with h0 | h0
  · obtain ⟨n, rfl⟩ := Int.eq_ofNat_of_zero_le h0
    have h : ((2 ^ n : ℕ) : ℚ) ≤ ((10 ^ j : ℕ) : ℚ) :=
      Nat.cast_le.mpr (two_pow_le_ten_pow (by omega))
    rw [zpow_natCast]
    exact_mod_cast h
  · calc (2 : ℚ) ^ k ≤ 1 := zpow_le_one_of_nonpos₀ (by norm_num) h0.le
      _ ≤ 10 ^ j := one_le_pow₀ (by norm_num)

/-- A point strictly inside the interval is in it, closed or not. -/
theorem Bounds.contains_of_strict {b : Bounds} {v : ℚ} (h1 : b.lo < v) (h2 : v < b.hi) :
    b.Contains v := by
  unfold Bounds.Contains
  split
  · exact ⟨h1.le, h2.le⟩
  · exact ⟨h1, h2⟩

/-- The interval of a finite double `m · 2^e` other than zero, as the search for its shortest
decimal uses it: the double is inside, the interval is wider than a sixteenth-digit unit of the
double, and it lies between `10^(-401)` and `10^400`. -/
structure Bounds.Around (b : Bounds) (m : ℕ) (e : ℤ) : Prop where
  mid_eq : (b.mid : ℚ) * 2 ^ b.scale = m * 2 ^ e
  lo_lt : b.lo < m * 2 ^ e
  lt_hi : (m : ℚ) * 2 ^ e < b.hi
  wide : (m : ℚ) * 2 ^ e < (b.hi - b.lo) * 10 ^ 16
  lo_ge : (10 : ℚ) ^ (-401 : ℤ) ≤ b.lo
  hi_lt : b.hi < 10 ^ 400

/-- The interval of every finite double other than zero has the shape the search needs. -/
theorem bounds_around {x : Float} (hfin : isFinite x = true) (hnz : parts x ≠ (0, -1074))
    {m : ℕ} {e : ℤ} (hp : parts x = (m, e)) : (bounds x).Around m e := by
  have hm0 : 0 < m := Nat.pos_of_ne_zero (mantissa_ne_zero hp hnz)
  obtain ⟨hm, -, he1, he2⟩ := parts_valid hfin hp
  have hpow : (0 : ℚ) < 2 ^ e := zpow_pos two_pos e
  have hm1 : (m : ℚ) + 1 ≤ 2 ^ 53 := by
    have : m + 1 ≤ 2 ^ 53 := by rw [hidden_eq] at hm; omega
    exact_mod_cast this
  have hmq : (1 : ℚ) ≤ m := by exact_mod_cast hm0
  -- the least and greatest magnitudes, against powers of ten
  have hsmall : (10 : ℚ) ^ (-401 : ℤ) ≤ 2 ^ e / 2 := by
    have h2 : (2 : ℚ) ^ (1 - e) ≤ 10 ^ 401 := two_zpow_le_ten_pow (by omega)
    calc (10 : ℚ) ^ (-401 : ℤ) = ((10 : ℚ) ^ 401)⁻¹ := by
          rw [show (-401 : ℤ) = -((401 : ℕ) : ℤ) by norm_num, zpow_neg, zpow_natCast]
      _ ≤ ((2 : ℚ) ^ (1 - e))⁻¹ := inv_anti₀ (zpow_pos two_pos _) h2
      _ = 2 ^ e / 2 := by rw [← zpow_neg, neg_sub, zpow_sub_one₀ two_ne_zero, div_eq_mul_inv]
  have hlarge : (2 : ℚ) ^ 53 * 2 ^ e ≤ 10 ^ 400 := by
    rw [← zpow_natCast, ← zpow_add₀ two_ne_zero]
    exact two_zpow_le_ten_pow (by omega)
  have hhi : ((m : ℚ) + 1 / 2) * 2 ^ e < 10 ^ 400 :=
    calc ((m : ℚ) + 1 / 2) * 2 ^ e < 2 ^ 53 * 2 ^ e := by gcongr; linarith
      _ ≤ 10 ^ 400 := hlarge
  rw [bounds_of_parts hp]
  split
  · next hb =>
    have hmh : (m : ℚ) = 2 ^ 52 := by rw [hb, hidden_eq]; norm_num
    refine ⟨?_, ?_, ?_, ?_, ?_, ?_⟩ <;>
      simp only [lo_boundary hm0, hi_boundary]
    · push_cast
      rw [zpow_sub₀ two_ne_zero]
      field_simp
      norm_num
    · nlinarith
    · nlinarith
    · rw [hmh]; nlinarith
    · exact hsmall.trans (by nlinarith)
    · exact hhi
  · next hb =>
    refine ⟨?_, ?_, ?_, ?_, ?_, ?_⟩ <;>
      simp only [lo_regular hm0, hi_regular]
    · push_cast
      rw [zpow_sub_one₀ two_ne_zero]
      field_simp
    · nlinarith
    · nlinarith
    · nlinarith
    · exact hsmall.trans (by nlinarith)
    · exact hhi

/-- `floorAt` is the floor of the double over `10^t`. -/
theorem Bounds.floorAt_spec (b : Bounds) (t : ℤ) :
    (b.floorAt t : ℚ) * 10 ^ t ≤ b.mid * 2 ^ b.scale ∧
      (b.mid : ℚ) * 2 ^ b.scale < (b.floorAt t + 1) * 10 ^ t := by
  have hps : 0 < (commonScales b t).1 := by
    simp only [commonScales, Nat.pow_eq]
    positivity
  have hfl : b.floorAt t = b.mid * (commonScales b t).2 / (commonScales b t).1 := rfl
  have hup := commonScales_le_iff b t (b.floorAt t + 1) b.mid
  push_cast at hup
  constructor
  · rw [← commonScales_le_iff, hfl]
    exact Nat.div_mul_le_self _ _
  · rw [← not_le, ← hup, not_le, hfl, Nat.mul_comm _ (commonScales b t).1]
    exact Nat.lt_mul_div_succ _ hps

/-- A positive number is at least ten to one less than its digit count. -/
theorem pow_pred_digitCount_le {n : ℕ} (hn : 0 < n) : 10 ^ (digitCount n - 1) ≤ n := by
  have h1 := digitCount_pos n
  by_cases h : digitCount n = 1
  · rw [h]
    exact hn
  · exact not_lt.mp fun hlt => by
      have := (digitCount_le_iff (by omega)).mpr hlt
      omega

/-- A number is below ten to its digit count. -/
theorem lt_pow_digitCount (n : ℕ) : n < 10 ^ digitCount n :=
  (digitCount_le_iff (digitCount_pos n)).mp le_rfl

/-- The digit count of `⌊(num / den) · 10^j⌋`, for a ratio of at least `10^(-j)`, bounds the
ratio's decimal logarithm from above. -/
theorem pow_digitCount_sub_le {num den j : ℕ} (hden : 0 < den) (hpos : den ≤ num * 10 ^ j) :
    (10 : ℚ) ^ ((digitCount (num * Nat.pow 10 j / den) : ℤ) - 1 - j) ≤ num / den := by
  rw [Nat.pow_eq]
  have hN1 : 0 < num * 10 ^ j / den := Nat.div_pos hpos hden
  generalize hN : num * 10 ^ j / den = N at hN1
  have hlow : ((10 ^ (digitCount N - 1) : ℕ) : ℚ) ≤ N := by
    exact_mod_cast pow_pred_digitCount_le hN1
  have hfloor : (N : ℚ) ≤ num * 10 ^ j / den := by
    rw [← hN]
    exact_mod_cast Nat.cast_div_le
  have hd1 : 1 ≤ digitCount N := digitCount_pos N
  have hdq : (0 : ℚ) < den := by exact_mod_cast hden
  calc (10 : ℚ) ^ ((digitCount N : ℤ) - 1 - j) = 10 ^ (digitCount N - 1) / 10 ^ j := by
        rw [show (digitCount N : ℤ) - 1 - j = ((digitCount N - 1 : ℕ) : ℤ) - (j : ℤ) by
            omega,
          zpow_sub₀ (by norm_num), zpow_natCast, zpow_natCast]
    _ ≤ num / den := by
        rw [div_le_iff₀ (by positivity), div_mul_eq_mul_div, le_div_iff₀ hdq]
        rw [le_div_iff₀ hdq] at hfloor
        push_cast at hlow
        nlinarith

/-- The decimal exponent of a finite double other than zero is at most its logarithm. -/
theorem pow_decimalExponent_le {x : Float} (hfin : isFinite x = true) (hnz : parts x ≠ (0, -1074))
    {m : ℕ} {e : ℤ} (hp : parts x = (m, e)) : (10 : ℚ) ^ decimalExponent x ≤ m * 2 ^ e := by
  have hm0 : 0 < m := Nat.pos_of_ne_zero (mantissa_ne_zero hp hnz)
  obtain ⟨-, -, he1, -⟩ := parts_valid hfin hp
  have hde : decimalExponent x = (digitCount (m * Nat.pow 2 e.toNat * Nat.pow 10 400 /
      Nat.pow 2 (-e).toNat) : ℤ) - 1 - (400 : ℕ) := by
    unfold decimalExponent ratio
    rw [hp]
    dsimp only
    omega
  -- the scale `10^400` stays a name: unfolding the literal power is never needed
  generalize hj : 400 = j at hde
  -- the double is at least `2^(-1074)`, so the scaled ratio is at least one
  have hpos : Nat.pow 2 (-e).toNat ≤ m * Nat.pow 2 e.toNat * 10 ^ j := by
    rw [Nat.pow_eq, Nat.pow_eq]
    calc 2 ^ (-e).toNat ≤ 10 ^ j := two_pow_le_ten_pow (by omega)
      _ ≤ m * 2 ^ e.toNat * 10 ^ j :=
        Nat.le_mul_of_pos_left _ (Nat.mul_pos hm0 (by positivity))
  have hratio : ((m * Nat.pow 2 e.toNat : ℕ) : ℚ) / ((Nat.pow 2 (-e).toNat : ℕ) : ℚ) =
      m * 2 ^ e := by
    rw [zpow_eq_div_pow 2 e]
    push_cast [Nat.pow_eq]
    ring
  rw [hde, ← hratio]
  exact pow_digitCount_sub_le (by rw [Nat.pow_eq]; positivity) hpos

/-- The search offers a decimal for `n` digits as soon as one of the two neighbours on the grid
reads back. -/
theorem Bounds.candidate_isSome {b : Bounds} {top : ℤ} {n : ℕ}
    (h : b.holds (b.floorAt (top - n + 1)) (top - n + 1) = true ∨
      b.holds (b.floorAt (top - n + 1) + 1) (top - n + 1) = true) :
    (b.candidate top n).isSome := by
  unfold Bounds.candidate
  dsimp only
  split_ifs <;> simp_all

/-- Seventeen significant digits always suffice: the interval is wider than the grid of
seventeen-digit decimals around the double, so one of the two neighbours of the double on that
grid lies inside. -/
theorem candidate_seventeen {x : Float} (hfin : isFinite x = true) (hnz : parts x ≠ (0, -1074)) :
    ((bounds x).candidate (decimalExponent x) 17).isSome := by
  rcases hp : parts x with ⟨m, e⟩
  have ha := bounds_around hfin hnz hp
  have htop := pow_decimalExponent_le hfin hnz hp
  apply Bounds.candidate_isSome
  generalize hb : bounds x = b at ha
  generalize ht : decimalExponent x - ((17 : ℕ) : ℤ) + 1 = t
  obtain ⟨hk1, hk2⟩ := b.floorAt_spec t
  rw [ha.mid_eq] at hk1 hk2
  generalize b.floorAt t = k at hk1 hk2
  -- the grid's unit `10^t` is narrower than the interval
  have hunit : (10 : ℚ) ^ t * 10 ^ 16 ≤ m * 2 ^ e := by
    rw [← zpow_natCast, ← zpow_add₀ (by norm_num), ← ht]
    convert htop using 2
    push_cast
    ring
  have hgap : (10 : ℚ) ^ t < b.hi - b.lo := by
    have := ha.wide
    have h16 : (0 : ℚ) < 10 ^ 16 := by positivity
    nlinarith
  simp only [Bounds.holds_iff]
  by_cases hlo : b.lo < (k : ℚ) * 10 ^ t
  · exact .inl (Bounds.contains_of_strict hlo (by linarith [ha.lt_hi]))
  · push_cast
    exact .inr (Bounds.contains_of_strict (by linarith [ha.lo_lt]) (by linarith))

/-- The shortest decimal of a finite double other than zero has a positive digit string and
reads back as the double. -/
theorem shortest_contains {x : Float} (hfin : isFinite x = true) (hnz : parts x ≠ (0, -1074)) :
    0 < (shortest x).1 ∧ (bounds x).Contains ((shortest x).1 * 10 ^ (shortest x).2) := by
  obtain ⟨n, -, -, hfind, hsome⟩ :=
    findSome?_range_succ (N := 17) (L := 17) (by norm_num) le_rfl (candidate_seventeen hfin hnz)
  obtain ⟨⟨d, t⟩, hdt⟩ := Option.isSome_iff_exists.mp hsome
  have hs := shortest_of_findSome? (hfind.trans hdt)
  have hc := (Bounds.holds_iff _ _ _).mp (Bounds.candidate_holds hdt).2
  rcases hp : parts x with ⟨m, e⟩
  have ha := bounds_around hfin hnz hp
  -- a decimal in the interval is positive
  have hd : 0 < d := by
    rcases Nat.eq_zero_or_pos d with h0 | h0
    · have hlo := hc.lo_le
      have h10 : (0 : ℚ) < 10 ^ (-401 : ℤ) := by positivity
      simp only [h0, Nat.cast_zero, zero_mul] at hlo
      linarith [ha.lo_ge]
    · exact h0
  obtain ⟨h1, h2, h3⟩ := trimZeros_spec 400 d t hd
  rw [hs]
  generalize trimZeros 400 d t = T at h1 h2 h3
  refine ⟨h1, ?_⟩
  -- trimming keeps the value
  have hval : (T.1 : ℚ) * 10 ^ T.2 = d * 10 ^ t := by
    rw [← h3]
    push_cast
    rw [mul_assoc, ← zpow_natCast, ← zpow_add₀ (by norm_num)]
    congr 2
    omega
  rw [hval]
  exact hc

/-! ## Reading the decimal back -/

/-- A decimal between `10^(-401)` and `10^400` is not settled by its digit count alone: `ofDecimal`
rounds its exact ratio. -/
theorem ofDecimal_eq_ofRatio {d : ℕ} {t : ℤ} (hd : 0 < d)
    (hlo : (10 : ℚ) ^ (-401 : ℤ) ≤ d * 10 ^ t)
    (hhi : (d : ℚ) * 10 ^ t < 10 ^ 400) :
    ofDecimal d t = ofRatio false (d * Nat.pow 10 t.toNat) (Nat.pow 10 (-t).toNat) := by
  have hc1 : ((10 ^ (digitCount d - 1) : ℕ) : ℚ) ≤ d := by
    exact_mod_cast pow_pred_digitCount_le hd
  have hc2 : (d : ℚ) < ((10 ^ digitCount d : ℕ) : ℚ) := by exact_mod_cast lt_pow_digitCount d
  have hd1 := digitCount_pos d
  have hpow : (0 : ℚ) < 10 ^ t := by positivity
  push_cast at hc1 hc2
  unfold ofDecimal
  rw [if_neg hd.ne', if_neg, if_neg]
  · -- at most `-401` would put the decimal below `10^(-401)`
    intro hsmall
    have hlt : (d : ℚ) * 10 ^ t < 10 ^ ((digitCount d : ℤ) + t) := by
      rw [zpow_add₀ (by norm_num), zpow_natCast]
      exact mul_lt_mul_of_pos_right hc2 hpow
    have hle : (10 : ℚ) ^ ((digitCount d : ℤ) + t) ≤ 10 ^ (-401 : ℤ) :=
      zpow_le_zpow_right₀ (by norm_num) (by omega)
    linarith
  · -- above `400` would put it at `10^400` or beyond
    intro hlarge
    have hle : (10 : ℚ) ^ (((digitCount d - 1 : ℕ) : ℤ) + t) ≤ d * 10 ^ t := by
      rw [zpow_add₀ (by norm_num), zpow_natCast]
      exact mul_le_mul_of_nonneg_right hc1 hpow.le
    have hge : (10 : ℚ) ^ 400 ≤ 10 ^ (((digitCount d - 1 : ℕ) : ℤ) + t) := by
      rw [← zpow_natCast]
      exact zpow_le_zpow_right₀ (by norm_num) (by omega)
    exact absurd (hge.trans hle) (not_le.mpr hhi)

/-- The exact ratio of a decimal `d · 10^t` as `ofDecimal` forms it. -/
theorem decimal_ratio (d : ℕ) (t : ℤ) :
    ((d * Nat.pow 10 t.toNat : ℕ) : ℚ) / ((Nat.pow 10 (-t).toNat : ℕ) : ℚ) =
      d * 10 ^ t := by
  rw [zpow_eq_div_pow 10 t]
  push_cast [Nat.pow_eq]
  ring

/-- A decimal in the interval of a finite double other than zero reads back as the double's
magnitude. -/
theorem ofDecimal_of_contains {x : Float} (hfin : isFinite x = true) (hnz : parts x ≠ (0, -1074))
    {d : ℕ} {t : ℤ} (hd : 0 < d) (hc : (bounds x).Contains (d * 10 ^ t)) :
    ofDecimal d t = encode false (parts x).1 (parts x).2 := by
  rcases hp : parts x with ⟨m, e⟩
  have ha := bounds_around hfin hnz hp
  rw [ofDecimal_eq_ofRatio hd (ha.lo_ge.trans hc.lo_le) (hc.le_hi.trans_lt ha.hi_lt)]
  rw [← hp]
  apply ofRatio_of_contains hfin hnz (Nat.mul_pos hd (by rw [Nat.pow_eq]; positivity))
    (by rw [Nat.pow_eq]; positivity)
  rw [decimal_ratio]
  exact hc

/-- The exact value of a finite double other than zero, written as a decimal, reads back as the
double's magnitude: it is the middle of the interval. -/
theorem ofDecimal_of_value {x : Float} (hfin : isFinite x = true) (hnz : parts x ≠ (0, -1074))
    {d : ℕ} {t : ℤ} (hd : 0 < d) (hv : (d : ℚ) * 10 ^ t = (parts x).1 * 2 ^ (parts x).2) :
    ofDecimal d t = encode false (parts x).1 (parts x).2 := by
  have ha := bounds_around (m := (parts x).1) (e := (parts x).2) hfin hnz rfl
  have hlo := ha.lo_lt
  have hhi := ha.lt_hi
  rw [← hv] at hlo hhi
  exact ofDecimal_of_contains hfin hnz hd (Bounds.contains_of_strict hlo hhi)

/-- The shortest decimal of a finite double other than zero reads back as the double's
magnitude. -/
theorem ofDecimal_shortest {x : Float} (hfin : isFinite x = true) (hnz : parts x ≠ (0, -1074)) :
    ofDecimal (shortest x).1 (shortest x).2 = encode false (parts x).1 (parts x).2 :=
  ofDecimal_of_contains hfin hnz (shortest_contains hfin hnz).1 (shortest_contains hfin hnz).2

end EcmaLite.Double
