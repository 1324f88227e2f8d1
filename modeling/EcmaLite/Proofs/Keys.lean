import Mathlib.Data.List.Induction
import Mathlib.Tactic.IntervalCases
import EcmaLite.Heap.Object

/-!
# Keys: canonical indices and property tables

Two facts about keys that the object model leans on everywhere.

A key names an array index exactly when it is the decimal writing of a number below `2^64`
(`arrayIndex?_eq_some_iff`): the check for digits and a leading zero in `arrayIndex?` accepts
precisely the texts that `toString` produces.

A property table maps each key it holds to one value: `Props.set` replaces in place or appends,
and lookups after it see exactly that change (`get?_set_self`, `get?_set_ne`); `Props.erase`
filters the key out (`keys_erase`). Tables built by these operations hold each key once.
-/

namespace EcmaLite

/-! ## Decimal digits -/

theorem digitsValue_eq_ofDigitChars (cs : List Char) :
    Number.digitsValue cs = Nat.ofDigitChars 10 cs 0 := by
  unfold Number.digitsValue Nat.ofDigitChars
  congr 1
  funext acc c
  rw [Nat.mul_comm]

theorem toNat_digitChar {n : Nat} (h : n < 10) : n.digitChar.toNat = n + 48 := by
  interval_cases n <;> rfl

theorem isDigit_bounds {c : Char} (h : c.isDigit) : 48 ≤ c.toNat ∧ c.toNat ≤ 57 := by
  simp [Char.isDigit] at h
  exact ⟨h.1, h.2⟩

theorem digit_lt_ten {c : Char} (h : c.isDigit) : c.toNat - '0'.toNat < 10 := by
  have := isDigit_bounds h
  simp
  omega

/-- A digit is the digit character of its value. -/
theorem digitChar_of_isDigit {c : Char} (h : c.isDigit) :
    (c.toNat - '0'.toNat).digitChar = c := by
  have hc := isDigit_bounds h
  apply Char.toNat_inj.mp
  rw [toNat_digitChar (digit_lt_ten h)]
  simp
  omega

theorem ofDigitChars_pos {c : Char} {rest : List Char} (hc : c.isDigit) (h0 : c ≠ '0') :
    0 < Nat.ofDigitChars 10 (c :: rest) 0 := by
  rw [Nat.ofDigitChars_cons, Nat.ofDigitChars_eq_ofDigitChars_zero]
  have hpos : 0 < c.toNat - '0'.toNat := by
    have := digitChar_of_isDigit hc
    by_contra hz
    rw [show c.toNat - '0'.toNat = 0 by omega] at this
    exact h0 (by rw [← this]; rfl)
  have := Nat.pow_pos (n := rest.length) (show 0 < 10 by omega)
  simp only [Nat.mul_zero, Nat.zero_add]
  exact Nat.add_pos_left (Nat.mul_pos this hpos) _

/-- Digits without a leading zero are the decimal writing of their value. The induction adds
one digit at the end, where `toDigits` adds it too. -/
theorem toDigits_ofDigitChars {cs : List Char} (hd : ∀ c ∈ cs, c.isDigit)
    (hne : cs ≠ []) (hz : cs.length > 1 → cs.head? ≠ some '0') :
    Nat.toDigits 10 (Nat.ofDigitChars 10 cs 0) = cs := by
  induction cs using List.reverseRecOn with
  | nil => exact absurd rfl hne
  | append_singleton init d ih =>
    have hdd : d.isDigit := hd d (by simp)
    rw [Nat.ofDigitChars_append, Nat.ofDigitChars_cons, Nat.ofDigitChars_nil]
    cases init with
    | nil =>
      simp only [Nat.ofDigitChars_nil, Nat.mul_zero, Nat.zero_add, List.nil_append]
      rw [Nat.toDigits_of_lt_base (digit_lt_ten hdd), digitChar_of_isDigit hdd]
    | cons c rest =>
      have hc : c.isDigit := hd c (by simp)
      have h0 : c ≠ '0' := fun h => hz (by simp) (by simp [h])
      rw [← Nat.toDigits_append_toDigits (by omega) (ofDigitChars_pos hc h0) (digit_lt_ten hdd),
        ih (fun x hx => hd x (by simp at hx ⊢; tauto)) (by simp) (fun _ => by simpa using h0),
        Nat.toDigits_of_lt_base (digit_lt_ten hdd), digitChar_of_isDigit hdd]

/-- The decimal writing of a number starts with `0` only for zero itself. -/
theorem eq_zero_of_toDigits_head {n : Nat} (h : (Nat.toDigits 10 n).head? = some '0') :
    n = 0 := by
  induction n using Nat.strong_induction_on with
  | _ n ih =>
    rw [Nat.toDigits_eq_if (by omega)] at h
    split at h
    · simpa using h
    · have hne := Nat.toDigits_ne_nil (n := n / 10) (b := 10)
      have hhead : (Nat.toDigits 10 (n / 10)).head? = some '0' := by
        rw [List.head?_append] at h
        cases hh : (Nat.toDigits 10 (n / 10)).head? with
        | none => simp_all
        | some x => simp_all
      have := ih (n / 10) (by omega) hhead
      omega

/-- Distinct numbers are written differently. -/
theorem toString_injective : Function.Injective (toString : Nat → String) := by
  intro i j h
  have hdigits : Nat.toDigits 10 i = Nat.toDigits 10 j := by
    simpa using congrArg String.toList h
  calc i = Nat.ofDigitChars 10 (Nat.toDigits 10 i) 0 := Nat.ofDigitChars_ten_toDigits.symm
    _ = Nat.ofDigitChars 10 (Nat.toDigits 10 j) 0 := by rw [hdigits]
    _ = j := Nat.ofDigitChars_ten_toDigits

/-! ## Canonical indices -/

theorem arrayIndex?_toString {i : Nat} (hi : i < Nat.pow 2 64) :
    arrayIndex? (toString i) = some i := by
  have hcs : (toString i).toList = Nat.toDigits 10 i := by simp
  unfold arrayIndex?
  simp only [hcs]
  have hne : Nat.toDigits 10 i ≠ [] := Nat.toDigits_ne_nil
  have hdig : ∀ c ∈ Nat.toDigits 10 i, c.isDigit := fun c hc =>
    Nat.isDigit_of_mem_toDigits (by omega) (by omega) hc
  rw [if_neg, if_neg, digitsValue_eq_ofDigitChars, Nat.ofDigitChars_ten_toDigits, if_pos hi]
  · rintro ⟨hlen, hhead⟩
    obtain rfl := eq_zero_of_toDigits_head hhead
    simp at hlen
  · simp only [List.isEmpty_iff, hne, false_or, Bool.not_eq_true', List.all_eq_false]
    simpa using hdig

/-- A key is a canonical index exactly when it is the decimal writing of a number below
`2^64`. -/
theorem arrayIndex?_eq_some_iff {key : String} {i : Nat} :
    arrayIndex? key = some i ↔ key = toString i ∧ i < Nat.pow 2 64 := by
  constructor
  · intro h
    simp only [arrayIndex?] at h
    split_ifs at h with h1 h2 hlt
    cases h
    refine ⟨?_, hlt⟩
    apply String.toList_inj.mp
    simp only [Nat.toString_eq_repr, Nat.toList_repr, digitsValue_eq_ofDigitChars]
    simp only [List.isEmpty_iff, Bool.not_eq_true', List.all_eq_false, not_or, not_exists,
      not_and, not_not] at h1
    rw [toDigits_ofDigitChars (fun c hc => h1.2 c hc) h1.1 (fun hl hh => h2 ⟨hl, hh⟩)]
  · rintro ⟨rfl, hi⟩
    exact arrayIndex?_toString hi

theorem arrayIndex?_length : arrayIndex? lengthKey = none := by decide

theorem ne_lengthKey_of_arrayIndex? {key : String} {i : Nat} (h : arrayIndex? key = some i) :
    key ≠ lengthKey := by
  rintro rfl
  rw [arrayIndex?_length] at h
  cases h

/-- Distinct keys name distinct indices. -/
theorem arrayIndex?_inj {k k' : String} {i : Nat} (h : arrayIndex? k = some i)
    (h' : arrayIndex? k' = some i) : k = k' :=
  (arrayIndex?_eq_some_iff.mp h).1.trans (arrayIndex?_eq_some_iff.mp h').1.symm

/-! ## Property tables -/

namespace Props

variable {t : List (String × Value)} {k k' : String} {v : Value}

theorem contains_iff : contains t k = true ↔ k ∈ t.map Prod.fst := by
  simp [contains]

theorem get?_isSome : (get? t k).isSome = contains t k := by
  rw [Bool.eq_iff_iff]
  simp [get?, contains, List.find?_isSome]

theorem get?_eq_none_iff : get? t k = none ↔ k ∉ t.map Prod.fst := by
  rw [← Option.not_isSome_iff_eq_none, get?_isSome, contains_iff]

@[simp] theorem get?_nil : get? [] k = none := rfl

theorem get?_cons {a : String} {b : Value} :
    get? ((a, b) :: t) k = if a = k then some b else get? t k := by
  by_cases h : a = k <;> simp [get?, h]

theorem mem_keys_cons {a : String} {b : Value} :
    k ∈ ((a, b) :: t).map Prod.fst ↔ a = k ∨ k ∈ t.map Prod.fst := by
  simp [eq_comm]

theorem get?_append_ne (h : k' ≠ k) : get? (t ++ [(k, v)]) k' = get? t k' := by
  induction t with
  | nil => simp [get?_cons, Ne.symm h]
  | cons p t ih =>
    obtain ⟨a, b⟩ := p
    rw [List.cons_append, get?_cons, get?_cons, ih]

theorem get?_append_self (h : k ∉ t.map Prod.fst) : get? (t ++ [(k, v)]) k = some v := by
  induction t with
  | nil => simp [get?_cons]
  | cons p t ih =>
    obtain ⟨a, b⟩ := p
    rw [mem_keys_cons, not_or] at h
    rw [List.cons_append, get?_cons, if_neg h.1, ih h.2]

/-- Rewriting the entries of key `k` in place. -/
theorem get?_map_replace (k' : String) :
    get? (t.map fun p => if p.1 = k then (k, v) else p) k' =
      if k' = k then (if k ∈ t.map Prod.fst then some v else none) else get? t k' := by
  induction t with
  | nil => simp
  | cons p t ih =>
    obtain ⟨a, b⟩ := p
    simp only [List.map_cons]
    by_cases ha : a = k
    · subst ha
      rw [if_pos rfl, get?_cons, get?_cons]
      by_cases hk : a = k'
      · subst hk; simp
      · simp only [if_neg hk, if_neg (Ne.symm hk), ih]
    · rw [if_neg ha, get?_cons, get?_cons, ih]
      by_cases hk : a = k'
      · subst hk
        simp [ha]
      · simp only [if_neg hk, List.mem_cons, show ¬k = a from fun h => ha h.symm, false_or]

@[simp] theorem get?_set_self : get? (set t k v) k = some v := by
  unfold set
  split
  · rename_i h
    simp only [beq_iff_eq]
    rw [get?_map_replace, if_pos rfl, if_pos (contains_iff.mp h)]
  · rename_i h
    rw [contains_iff] at h
    exact get?_append_self h

theorem get?_set_ne (h : k' ≠ k) : get? (set t k v) k' = get? t k' := by
  unfold set
  split
  · simp only [beq_iff_eq]
    rw [get?_map_replace, if_neg h]
  · exact get?_append_ne h

theorem keys_set : (set t k v).map Prod.fst =
    if k ∈ t.map Prod.fst then t.map Prod.fst else t.map Prod.fst ++ [k] := by
  unfold set
  by_cases h : k ∈ t.map Prod.fst
  · rw [if_pos (contains_iff.mpr h), if_pos h, List.map_map]
    apply List.map_congr_left
    intro p _
    simp only [Function.comp_apply, beq_iff_eq]
    split <;> simp_all
  · rw [if_neg (mt contains_iff.mp h), if_neg h, List.map_append]
    rfl

theorem mem_keys_set : k' ∈ (set t k v).map Prod.fst ↔ k' = k ∨ k' ∈ t.map Prod.fst := by
  rw [keys_set]
  split
  · constructor
    · exact Or.inr
    · rintro (rfl | h) <;> assumption
  · simp [or_comm]

theorem nodup_keys_set (h : (t.map Prod.fst).Nodup) : ((set t k v).map Prod.fst).Nodup := by
  rw [keys_set]
  split
  · exact h
  · rename_i hk
    refine List.nodup_append.mpr ⟨h, by simp, ?_⟩
    rintro a ha b hb rfl
    rw [List.mem_singleton] at hb
    exact hk (hb ▸ ha)

theorem keys_erase : (erase t k).map Prod.fst = (t.map Prod.fst).filter (· != k) := by
  rw [erase, List.filter_map]
  rfl

theorem mem_keys_erase : k' ∈ (erase t k).map Prod.fst ↔ k' ≠ k ∧ k' ∈ t.map Prod.fst := by
  rw [keys_erase, List.mem_filter]
  simp [and_comm]

theorem nodup_keys_erase (h : (t.map Prod.fst).Nodup) : ((erase t k).map Prod.fst).Nodup := by
  rw [keys_erase]
  exact h.filter _

end Props

end EcmaLite
