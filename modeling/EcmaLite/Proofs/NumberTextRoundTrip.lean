import Mathlib
import EcmaLite.Proofs.ShortestReadsBack
import EcmaLite.Proofs.DoubleParts
import EcmaLite.Proofs.NumericText
import EcmaLite.Proofs.Keys

/-!
# Numbers written as text and read back

`ToString` writes a number as `Number.toText`: the decimal of an `int`, the shortest positional
text of a `float` (`0` for both zeros), and `NaN`, `Infinity`, `-Infinity`. `ToNumber` reads a
text with `Number.ofText`. On numbers in normal form the two are inverse, except that `-0` comes
back as the `int` `0` (`number_text_round_trip`).

Each text is a decimal numeral (`DecimalNumeral`) whose value the reader computes: the decimal
of an `int` (`toString_numeral`) and the positional text of a shortest decimal in each of its
three shapes, `0.00ddd`, `dd.ddd` and `ddd00` (`plainText_numeral`). The numeral of a whole
number below `2^53` rounds to the number's own double (`ofDecimal_natAbs_signed`), and that of
the shortest text of a finite double to the double itself (`shortestText_numeral`), since the
shortest decimal reads back. Normal form then gives the number back.
-/

namespace EcmaLite

open Number Double

/-! ## Digits -/

/-- The digits of a number read back as the number. -/
theorem digitsValue_toDigits (n : ℕ) : digitsValue (Nat.toDigits 10 n) = n := by
  rw [digitsValue_eq_ofDigitChars, Nat.ofDigitChars_ten_toDigits]

/-- Leading zeros do not change the value of a run of digits. -/
theorem digitsValue_zeros_append (k : ℕ) (cs : List Char) :
    digitsValue (List.replicate k '0' ++ cs) = digitsValue cs := by
  induction k with
  | zero => rfl
  | succ k ih =>
    rw [List.replicate_succ, List.cons_append]
    exact ih

theorem allDigits_toDigits (n : ℕ) : AllDigits (Nat.toDigits 10 n) :=
  fun _ hc => Nat.isDigit_of_mem_toDigits (by norm_num) le_rfl hc

theorem allDigits_zeros (k : ℕ) : AllDigits (List.replicate k '0') := by
  intro c hc
  rw [(List.mem_replicate.mp hc).2]
  rfl

theorem allDigits_append {as bs : List Char} (ha : AllDigits as) (hb : AllDigits bs) :
    AllDigits (as ++ bs) := by
  intro c hc
  rcases List.mem_append.mp hc with hc | hc
  · exact ha c hc
  · exact hb c hc

/-- Zeros moved from the digits into the exponent do not change the double of a decimal. -/
theorem ofDecimal_mul_pow_ten {d : ℕ} {t : ℤ} (hd : 0 < d) (ht : 0 ≤ t) :
    ofDecimal (d * 10 ^ t.toNat) 0 = ofDecimal d t := by
  have hcount : (digitCount (d * 10 ^ t.toNat) : ℤ) + 0 = (digitCount d : ℤ) + t := by
    rw [digitCount_mul_pow_ten hd]
    push_cast
    omega
  have hne : d * 10 ^ t.toNat ≠ 0 := Nat.mul_ne_zero hd.ne' (by positivity)
  unfold ofDecimal
  rw [if_neg hne, if_neg hd.ne', hcount, show (-t).toNat = 0 by omega]
  simp only [Int.toNat_zero, neg_zero, Nat.pow_eq, pow_zero, Nat.mul_one]

/-- The positional text of a decimal with a positive digit string is a decimal numeral with no
sign, whose magnitude is the double of the decimal. -/
theorem plainText_numeral {d : ℕ} (hd : 0 < d) (t : ℤ) :
    ∃ n : DecimalNumeral, n.sign = none ∧ n.text = (plainText d t).toList ∧
      n.magnitude = ofDecimal d t := by
  have hds := allDigits_toDigits d
  have hlen : 0 < (Nat.toDigits 10 d).length := digitCount_pos d
  have hval := digitsValue_toDigits d
  have hmul := toDigits_mul_pow_ten hd t.toNat
  unfold plainText
  generalize Nat.toDigits 10 d = ds at hds hlen hval hmul
  dsimp only
  split_ifs with h1 h2
  · -- `0.`, then zeros, then the digits
    refine ⟨⟨none, ['0'], some (List.replicate (-(t + ds.length)).toNat '0' ++ ds), none,
      fun c hc => by rw [List.mem_singleton.mp hc]; rfl, allDigits_append (allDigits_zeros _) hds,
      .inl (List.cons_ne_nil _ _)⟩, rfl, by simp [DecimalNumeral.text, DecimalNumeral.body,
      DecimalNumeral.pointText, signText, expText], ?_⟩
    have hv : digitsValue (['0'] ++ (List.replicate (-(t + ds.length)).toNat '0' ++ ds)) = d :=
      (digitsValue_zeros_append _ ds).trans hval
    simp only [DecimalNumeral.magnitude, Option.getD_some, expValue, Option.map_none,
      Option.getD_none, List.length_append, List.length_replicate, hv]
    congr 1
    push_cast
    omega
  · -- the digits with a point among them
    have hp0 : 0 < (t + ds.length).toNat := by omega
    refine ⟨⟨none, ds.take (t + ds.length).toNat, some (ds.drop (t + ds.length).toNat), none,
      (fun c hc => hds c (List.mem_of_mem_take hc)),
      (fun c hc => hds c (List.mem_of_mem_drop hc)), .inl ?_⟩, rfl,
      by simp [DecimalNumeral.text, DecimalNumeral.body, DecimalNumeral.pointText, signText,
        expText], ?_⟩
    · simp only [ne_eq, List.take_eq_nil_iff, not_or]
      exact ⟨hp0.ne', List.ne_nil_of_length_pos hlen⟩
    simp only [DecimalNumeral.magnitude, Option.getD_some, expValue, Option.map_none,
      Option.getD_none, List.take_append_drop, List.length_drop, hval]
    congr 1
    omega
  · -- the digits, then zeros
    have ht : 0 ≤ t := by omega
    have hk : (t + ds.length).toNat - ds.length = t.toNat := by omega
    refine ⟨⟨none, ds ++ List.replicate ((t + ds.length).toNat - ds.length) '0', none, none,
      allDigits_append hds (allDigits_zeros _), (fun _ hc => (List.not_mem_nil hc).elim),
      .inl (by simp [List.ne_nil_of_length_pos hlen])⟩, rfl, by simp [DecimalNumeral.text,
      DecimalNumeral.body, DecimalNumeral.pointText, signText, expText], ?_⟩
    simp only [DecimalNumeral.magnitude, Option.getD_none, expValue, Option.map_none,
      List.append_nil, List.length_nil, hk, ← hmul, digitsValue_toDigits, Nat.cast_zero, sub_zero]
    exact ofDecimal_mul_pow_ten hd ht

/-! ## Reading a numeral's text -/

/-- No character of a decimal numeral is white space. -/
theorem not_isWhiteSpace_of_isNumeralChar {c : Char} (h : isNumeralChar c = true) :
    isWhiteSpace c = false := by
  simp only [isNumeralChar, decide_eq_true_eq] at h
  simp only [isWhiteSpace, decide_eq_false_iff_not]
  rcases h with h | h | h | h | h | h
  · have := isDigit_bounds h
    omega
  all_goals subst h; decide

/-- A text of numeral characters has no white space to trim. -/
theorem trimWhiteSpace_of_numeral {t : List Char} (h : t.all isNumeralChar = true) :
    trimWhiteSpace t = t := by
  have hws : ∀ c ∈ t, isWhiteSpace c = false := fun c hc =>
    not_isWhiteSpace_of_isNumeralChar (List.all_eq_true.mp h c hc)
  have h1 : t.dropWhile isWhiteSpace = t := List.dropWhile_eq_self_iff.mpr fun hl => by
    rw [hws _ (List.getElem_mem hl)]
    exact Bool.false_ne_true
  have h2 : t.reverse.dropWhile isWhiteSpace = t.reverse :=
    List.dropWhile_eq_self_iff.mpr fun hl => by
      rw [hws _ (List.mem_reverse.mp (List.getElem_mem hl))]
      exact Bool.false_ne_true
  rw [trimWhiteSpace, h1, h2, List.reverse_reverse]

/-- `ToNumber` of the text of a decimal numeral is its value in normal form. -/
theorem ofText_of_numeral {s : String} (n : DecimalNumeral) (hs : s.toList = n.text) :
    ofText s = ofFloat n.value := by
  have ht : trimWhiteSpace s.toList = n.text := by
    rw [hs, trimWhiteSpace_of_numeral n.all_isNumeralChar]
  rw [ofText_of_not_hexPrefix ht n.text_ne_nil (fun _ _ => n.text_not_hexPrefix),
    n.ofDecimalText_text]

/-! ## The texts of numbers -/

/-- The shortest text of a finite double other than zero is a decimal numeral whose value is
the double: a minus sign for a set sign bit, then the positional text of its shortest decimal. -/
theorem shortestText_numeral {x : Float} (hfin : isFinite x = true) (hnz : parts x ≠ (0, -1074)) :
    ∃ n : DecimalNumeral, n.text = (shortestText x).toList ∧ n.value = x := by
  obtain ⟨hd, -⟩ := shortest_contains hfin hnz
  have hread := ofDecimal_shortest hfin hnz
  have hself := encode_parts hfin hnz
  rcases hs : shortest x with ⟨d, t⟩
  rcases hp : parts x with ⟨m, e⟩
  rw [hs] at hd hread
  rw [hp] at hread hself
  obtain ⟨n, hsign, htext, hmag⟩ := plainText_numeral hd t
  have hm0 : 0 < m := Nat.pos_of_ne_zero (mantissa_ne_zero hp hnz)
  obtain ⟨hm, -, he1, he2⟩ := parts_valid hfin hp
  refine ⟨{ n with sign := if signBit x then some true else none }, ?_, ?_⟩
  · have hbody : n.body = (plainText d t).toList := by
      rw [← htext, DecimalNumeral.text, hsign, signText, List.nil_append]
    show signText (if signBit x then some true else none) ++ n.body = _
    rw [hbody, shortestText_of_shortest hfin hnz hs]
    cases signBit x <;> simp [signText]
  · show (if (if signBit x then some true else none) = some true then -n.magnitude
      else n.magnitude) = x
    rw [hmag, hread]
    cases hsb : signBit x
    · rw [hsb] at hself
      simpa using hself
    · rw [hsb] at hself
      simpa [neg_encode hm0 hm he1 he2] using hself

/-- The decimal text of a whole number is a decimal numeral, signed when the number is
negative. -/
theorem toString_numeral (i : ℤ) :
    ∃ n : DecimalNumeral, n.text = (toString i).toList ∧
      n.value = if i < 0 then -ofDecimal i.natAbs 0 else ofDecimal i.natAbs 0 := by
  refine ⟨⟨if i < 0 then some true else none, Nat.toDigits 10 i.natAbs, none, none,
    allDigits_toDigits _, (fun _ hc => (List.not_mem_nil hc).elim), .inl Nat.toDigits_ne_nil⟩,
    ?_, ?_⟩
  · rw [Int.toString_eq_repr, Int.repr_eq_if]
    by_cases hneg : i < 0
    · rw [if_neg (show ¬(0 ≤ i) by omega), show (-i).toNat = i.natAbs by omega,
        Nat.repr_eq_ofList_toDigits]
      simp [DecimalNumeral.text, DecimalNumeral.body, DecimalNumeral.pointText, expText,
        signText, hneg]
    · rw [if_pos (show 0 ≤ i by omega), show i.toNat = i.natAbs by omega,
        Nat.repr_eq_ofList_toDigits]
      simp [DecimalNumeral.text, DecimalNumeral.body, DecimalNumeral.pointText, expText,
        signText, hneg]
  · simp only [DecimalNumeral.value, DecimalNumeral.magnitude, Option.getD_none, List.append_nil,
      digitsValue_toDigits, expValue, Option.map_none, List.length_nil, Nat.cast_zero, sub_zero]
    by_cases hneg : i < 0 <;> simp [hneg]

/-- Read as a decimal, a whole number below `2^53` in magnitude gives its own double. -/
theorem ofDecimal_natAbs_signed {i : ℤ} (hi : i.natAbs < 2 * Double.hidden) :
    (if i < 0 then -ofDecimal i.natAbs 0 else ofDecimal i.natAbs 0) = ofInt i := by
  by_cases h0 : i = 0
  · subst h0
    rfl
  obtain ⟨hk, hlo, hhi⟩ := shifted_mantissa (Int.natAbs_ne_zero.mpr h0) hi
  have he1 : -1074 ≤ (i.natAbs.log2 : ℤ) - 52 := by omega
  have he2 : (i.natAbs.log2 : ℤ) - 52 ≤ 971 := by omega
  have hfin := isFinite_encode false hlo hhi he1 he2
  have hx := parts_encode false hlo hhi he1 he2
  have hM0 : 0 < i.natAbs * 2 ^ (52 - i.natAbs.log2) := by rw [hidden_eq] at hlo; omega
  have hnz : parts (encode false (i.natAbs * 2 ^ (52 - i.natAbs.log2))
      ((i.natAbs.log2 : ℤ) - 52)) ≠ (0, -1074) := by
    rw [hx]
    intro h
    exact hM0.ne' (Prod.mk.inj h).1
  -- the number is the double's own value
  have hval : ((i.natAbs : ℕ) : ℚ) * 10 ^ (0 : ℤ) =
      ((i.natAbs * 2 ^ (52 - i.natAbs.log2) : ℕ) : ℚ) * 2 ^ ((i.natAbs.log2 : ℤ) - 52) := by
    rw [show ((i.natAbs.log2 : ℤ) - 52) = -((52 - i.natAbs.log2 : ℕ) : ℤ) by omega, zpow_neg,
      zpow_natCast, zpow_zero]
    push_cast
    field_simp
  have hread := ofDecimal_of_value hfin hnz (Int.natAbs_pos.mpr h0) (by rw [hx]; exact hval)
  rw [hx] at hread
  rw [ofInt_eq_encode h0 hi, hread]
  by_cases hneg : i < 0
  · rw [if_pos hneg, decide_eq_true hneg, neg_encode hM0 hhi he1 he2]
  · rw [if_neg hneg, decide_eq_false hneg]

/-- `ToNumber` of the decimal text of a whole number up to `2^53 - 1` in magnitude is the
number. -/
theorem ofText_toString {i : ℤ} (hi : i.natAbs ≤ maxSafe) : ofText (toString i) = .int i := by
  obtain ⟨n, htext, hvalue⟩ := toString_numeral i
  rw [ofText_of_numeral n htext.symm, hvalue,
    ofDecimal_natAbs_signed (lt_of_le_of_lt hi maxSafe_lt), ofFloat_ofInt hi]

/-- `ToNumber` of the shortest text of a finite double other than zero is the double in normal
form. -/
theorem ofText_shortestText {x : Float} (hfin : isFinite x = true)
    (hnz : parts x ≠ (0, -1074)) : ofText (shortestText x) = ofFloat x := by
  obtain ⟨n, htext, hvalue⟩ := shortestText_numeral hfin hnz
  rw [ofText_of_numeral n htext.symm, hvalue]

/-- Writing a number in normal form as text (`ToString`) and reading the text back with
`ToNumber` gives the number: an `int` the same `int`, a `float` the same `float`, NaN and the
infinities themselves. The one exception is a zero, which comes back as the `int` `0`: `-0` is
written `0`. -/
theorem number_text_round_trip (w : World) (n : Number) (hn : n.Normal) :
    (Value.str (w.text (.num n))).toNumber = if n.isZero then .int 0 else n := by
  show ofText n.toText = _
  cases n with
  | int i =>
    rw [Number.toText, ofText_toString hn]
    by_cases h0 : i = 0 <;> simp [Number.isZero, h0]
  | float f =>
    obtain ⟨hfin, hkind⟩ := hn
    by_cases hz : parts f = (0, -1074)
    · -- `-0` is written `0`, which reads as the `int` zero
      have hzero : (Number.float f).isZero = true := by simp [Number.isZero, hz]
      rw [Number.toText, if_pos hz, hzero, if_pos rfl]
      exact ofText_toString (i := 0) (by decide)
    · -- a `float` in normal form is no whole number within `2^53 - 1`, so it stays a `float`
      have hzero : (Number.float f).isZero = false := by simp [Number.isZero, hz]
      rw [Number.toText, if_neg hz, hzero, ofText_shortestText hfin hz, ofFloat_of_isFinite hfin,
        if_neg, if_neg (by simp)]
      rintro ⟨hint, hsafe, -⟩
      rcases hkind with h | h | ⟨-, h⟩
      · simp [h] at hint
      · omega
      · exact hz h
  | nan => rfl
  | posInf => rfl
  | negInf => rfl

/-- `-7` is written `-7` and read back as `-7`. -/
theorem negative_whole_reads_back :
    (Value.str ((default : World).text (.num (.int (-7))))).toNumber = .int (-7) := by
  have h := number_text_round_trip default (.int (-7)) (by decide)
  rwa [if_neg (by decide)] at h

end EcmaLite
