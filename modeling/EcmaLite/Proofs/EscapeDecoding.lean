import EcmaLite.Proofs.NumericText

/-!
# Decoding the escapes of string literals

`Escape.Reads body out` is the escape grammar of string literals, one rule for each kind of
escape: a character other than a backslash stands for itself; a backslash and one of
`n t r b f v 0` for a control character; `\x` and `\u` followed by a *code* of two or four
characters for the character the code names; `\x` and `\u` followed by no code for the letter
itself, reading going on right after it; a backslash and any other character for that
character; and a backslash at the very end for itself.

A code is hexadecimal digits naming a Unicode scalar value, and the digits may follow a `+`:
the group after `\x` or `\u` is read as a numeral, and a numeral may carry that sign. So `\x+1`
is the character with code 1 and `\u+041` is `A`, where a reading that took only digits as a
code would give the letter followed by `+1` or `+041`.

`decode_eq_iff_reads` says that `Escape.decode` follows the grammar exactly: the one reading of
every body is what it returns. It rests on the reading of a code (`hexChar?_eq_some_iff`), on
`reads_decode` (what `decode` returns is a reading, by induction along `decode`) and on
`decode_of_reads` (a reading is what `decode` returns, by induction on the reading).
-/

namespace EcmaLite.Escape

open Number

/-- The escapes that stand for control characters, each with its character. -/
def controls : List (Char × Char) :=
  [('n', '\n'), ('t', '\t'), ('r', '\r'), ('b', Char.ofNat 8), ('f', Char.ofNat 12),
    ('v', Char.ofNat 11), ('0', Char.ofNat 0)]

/-- `\x` takes a code of two characters and `\u` one of four. -/
def codeWidth : Char → Option Nat
  | 'x' => some 2
  | 'u' => some 4
  | _ => none

/-- The value of a run of hexadecimal digits. -/
def hexRunValue (hs : List Char) : Nat :=
  hs.foldl (fun acc d => acc * 16 + (hexDigit? d).getD 0) 0

/-- The characters of a code name `c`: hexadecimal digits, at least one and possibly after a
`+`, whose value is the code of `c`. -/
def Names (ds : List Char) (c : Char) : Prop :=
  ∃ hs, (ds = hs ∨ ds = '+' :: hs) ∧ hs ≠ [] ∧ (∀ d ∈ hs, (hexDigit? d).isSome) ∧
    hexRunValue hs = c.toNat

/-- How the body of a string literal reads, escape by escape. -/
inductive Reads : List Char → List Char → Prop
  | nil : Reads [] []
  /-- A character other than a backslash stands for itself. -/
  | plain {c : Char} {r out : List Char} : c ≠ '\\' → Reads r out → Reads (c :: r) (c :: out)
  /-- `\n`, `\t`, `\r`, `\b`, `\f`, `\v` and `\0`. -/
  | control {c d : Char} {r out : List Char} : (c, d) ∈ controls → Reads r out →
      Reads ('\\' :: c :: r) (d :: out)
  /-- `\x` or `\u` followed by a code stands for the character the code names. -/
  | code {m c : Char} {w : Nat} {ds r out : List Char} : codeWidth m = some w → ds.length = w →
      Names ds c → Reads r out → Reads ('\\' :: m :: (ds ++ r)) (c :: out)
  /-- `\x` or `\u` followed by no code stands for its letter. -/
  | letter {m : Char} {w : Nat} {r out : List Char} : codeWidth m = some w →
      (∀ ds rest c, r = ds ++ rest → ds.length = w → ¬ Names ds c) → Reads r out →
      Reads ('\\' :: m :: r) (m :: out)
  /-- A backslash and any other character stand for that character. -/
  | other {c : Char} {r out : List Char} : (∀ d, (c, d) ∉ controls) → codeWidth c = none →
      Reads r out → Reads ('\\' :: c :: r) (c :: out)
  /-- A backslash at the very end stands for itself. -/
  | lone : Reads ['\\'] ['\\']

/-! ## Control characters and codes -/

theorem control?_eq_some_iff {c d : Char} : control? c = some d ↔ (c, d) ∈ controls := by
  unfold control?
  split <;> simp_all [controls, eq_comm]

theorem control?_eq_none_iff {c : Char} : control? c = none ↔ ∀ d, (c, d) ∉ controls := by
  simp only [← control?_eq_some_iff, Option.eq_none_iff_forall_ne_some]

theorem codeWidth_eq_some_iff {m : Char} {w : Nat} :
    codeWidth m = some w ↔ (m = 'x' ∧ w = 2) ∨ (m = 'u' ∧ w = 4) := by
  unfold codeWidth
  split <;> simp_all [eq_comm]

theorem scalar?_eq_some_iff {n : Nat} {c : Char} : scalar? n = some c ↔ c.toNat = n := by
  unfold scalar?
  constructor
  · intro h
    split at h
    · next hn =>
      rw [← Option.some.inj h, Char.toNat_ofNat, if_pos hn]
    · cases h
  · rintro rfl
    have hvalid : c.toNat < 0xD800 ∨ (0xDFFF < c.toNat ∧ c.toNat < 0x110000) := c.valid
    rw [if_pos hvalid, Char.ofNat_toNat]

theorem hexValue?_run {hs : List Char} (hne : hs ≠ [])
    (hall : ∀ d ∈ hs, (hexDigit? d).isSome) : hexValue? hs = some (hexRunValue hs) := by
  unfold hexValue?
  rw [if_neg (by simpa using hne)]
  exact foldlM_hexDigit hall 0

/-- Digits read as a numeral name `c` when they are hexadecimal digits, at least one, of value
the code of `c`. -/
theorem hexValue?_bind_scalar? {hs : List Char} {c : Char} :
    (hexValue? hs).bind scalar? = some c ↔
      hs ≠ [] ∧ (∀ d ∈ hs, (hexDigit? d).isSome) ∧ hexRunValue hs = c.toNat := by
  constructor
  · intro h
    obtain ⟨v, hv, hc⟩ := Option.bind_eq_some_iff.mp h
    obtain ⟨hne, hall⟩ := hexDigits_of_hexValue? hv
    refine ⟨hne, hall, ?_⟩
    rw [scalar?_eq_some_iff.mp hc]
    exact Option.some.inj ((hexValue?_run hne hall).symm.trans hv)
  · rintro ⟨hne, hall, hval⟩
    rw [hexValue?_run hne hall, Option.bind_some, hval, scalar?_eq_some_iff]

/-- A `+` is no hexadecimal digit. -/
theorem plus_not_hexDigit {hs : List Char} (hall : ∀ d ∈ hs, (hexDigit? d).isSome) :
    '+' ∉ hs := fun h => absurd (hall '+' h) (by decide)

/-- The decoder reads a code exactly when its characters name a character. -/
theorem hexChar?_eq_some_iff {ds : List Char} {c : Char} : hexChar? ds = some c ↔ Names ds c := by
  by_cases hp : ∃ r, ds = '+' :: r
  · -- the `+` is dropped before the digits are read
    obtain ⟨r, rfl⟩ := hp
    have hread : hexChar? ('+' :: r) = (hexValue? r).bind scalar? := rfl
    rw [hread, hexValue?_bind_scalar?]
    constructor
    · rintro ⟨hne, hall, hval⟩
      exact ⟨r, .inr rfl, hne, hall, hval⟩
    · rintro ⟨hs, hds | hds, hne, hall, hval⟩
      · exact absurd (hds ▸ List.mem_cons_self) (plus_not_hexDigit hall)
      · rw [List.cons.inj hds |>.2]
        exact ⟨hne, hall, hval⟩
  · have hread : hexChar? ds = (hexValue? ds).bind scalar? := by
      unfold hexChar?
      split
      · next r => exact absurd ⟨r, rfl⟩ hp
      · rfl
    rw [hread, hexValue?_bind_scalar?]
    constructor
    · rintro ⟨hne, hall, hval⟩
      exact ⟨ds, .inl rfl, hne, hall, hval⟩
    · rintro ⟨hs, rfl | hds, hne, hall, hval⟩
      · exact ⟨hne, hall, hval⟩
      · exact absurd ⟨hs, hds⟩ hp

/-- No code of width `w` starts `r` once the decoder's reading of the first `w` characters
fails. -/
theorem no_code_of_hexChar? {r ds' : List Char} {w : Nat} (hw : ds'.length = w)
    (hr : ∃ rest, r = ds' ++ rest) (h : hexChar? ds' = none) :
    ∀ ds rest c, r = ds ++ rest → ds.length = w → ¬ Names ds c := by
  intro ds rest c hsplit hlen hnames
  obtain ⟨rest', rfl⟩ := hr
  have hsame : ds = ds' := by
    have := congrArg (List.take w) hsplit
    rwa [List.take_left' hw, List.take_left' hlen, eq_comm] at this
  rw [hsame, ← hexChar?_eq_some_iff, h] at hnames
  cases hnames

/-- No code of width `w` starts a text shorter than `w`. -/
theorem no_code_of_short {r : List Char} {w : Nat} (h : r.length < w) :
    ∀ ds rest c, r = ds ++ rest → ds.length = w → ¬ Names ds c := by
  intro ds rest c hsplit hlen _
  have := congrArg List.length hsplit
  rw [List.length_append] at this
  omega

/-! ## What `decode` returns is a reading -/

theorem reads_decode (r : List Char) : Reads r (decode r) := by
  fun_induction decode r with
  | case1 => exact .nil
  | case2 a b rest d hd ih =>
    show Reads ('\\' :: 'x' :: ([a, b] ++ rest)) _
    exact .code rfl rfl (hexChar?_eq_some_iff.mp hd) ih
  | case3 a b rest hd ih =>
    exact .letter rfl (no_code_of_hexChar? rfl ⟨rest, rfl⟩ hd) ih
  | case4 a b c e rest d hd ih =>
    show Reads ('\\' :: 'u' :: ([a, b, c, e] ++ rest)) _
    exact .code rfl rfl (hexChar?_eq_some_iff.mp hd) ih
  | case5 a b c e rest hd ih =>
    exact .letter rfl (no_code_of_hexChar? rfl ⟨rest, rfl⟩ hd) ih
  | case6 c rest hx hu ih =>
    -- an escape of a letter that is not followed by its full code, or of any other character
    cases hctl : control? c with
    | some d => exact .control (control?_eq_some_iff.mp hctl) ih
    | none =>
      cases hw : codeWidth c with
      | none => exact .other (control?_eq_none_iff.mp hctl) hw ih
      | some w =>
        refine .letter hw (no_code_of_short ?_) ih
        rcases codeWidth_eq_some_iff.mp hw with ⟨rfl, rfl⟩ | ⟨rfl, rfl⟩
        · rcases rest with _ | ⟨a, _ | ⟨b, t⟩⟩
          · simp
          · simp
          · exact (hx a b t rfl rfl).elim
        · rcases rest with _ | ⟨a, _ | ⟨b, _ | ⟨d, _ | ⟨e, t⟩⟩⟩⟩
          · simp
          · simp
          · simp
          · simp
          · exact (hu a b d e t rfl rfl).elim
  | case7 c rest h1 h2 h3 ih =>
    by_cases hc : c = '\\'
    · -- a backslash followed by nothing
      subst hc
      rcases rest with _ | ⟨d, t⟩
      · rw [decode]
        exact .lone
      · exact (h3 d t rfl rfl).elim
    · exact .plain hc ih

/-! ## The grammar reads each body one way -/

theorem codeWidth_of_control {c d : Char} (h : (c, d) ∈ controls) : codeWidth c = none := by
  simp only [controls, List.mem_cons, Prod.mk.injEq, List.not_mem_nil, or_false] at h
  rcases h with ⟨rfl, _⟩ | ⟨rfl, _⟩ | ⟨rfl, _⟩ | ⟨rfl, _⟩ | ⟨rfl, _⟩ | ⟨rfl, _⟩ | ⟨rfl, _⟩ <;> rfl

theorem controls_unique {c d d' : Char} (h : (c, d) ∈ controls) (h' : (c, d') ∈ controls) :
    d = d' :=
  Option.some.inj ((control?_eq_some_iff.mpr h).symm.trans (control?_eq_some_iff.mpr h'))

theorem names_unique {ds : List Char} {c c' : Char} (h : Names ds c) (h' : Names ds c') : c = c' :=
  Option.some.inj ((hexChar?_eq_some_iff.mpr h).symm.trans (hexChar?_eq_some_iff.mpr h'))

/-- Two codes of one width at the front of one text are the same characters. -/
theorem code_split_unique {ds r ds' r' : List Char} (h : ds ++ r = ds' ++ r')
    (hlen : ds.length = ds'.length) : ds = ds' ∧ r = r' :=
  List.append_inj h hlen

/-- The escape grammar is unambiguous: a body has at most one reading. -/
theorem Reads.unique {r out : List Char} (h : Reads r out) :
    ∀ {r' out'}, Reads r' out' → r = r' → out = out' := by
  induction h with
  | nil =>
    intro r' out' h' hr
    cases h' with
    | nil => rfl
    | _ => simp at hr
  | plain hc _ ih =>
    intro r' out' h' hr
    cases h' with
    | plain _ h' =>
      obtain ⟨rfl, rfl⟩ := List.cons.inj hr
      rw [ih h' rfl]
    | control | code | letter | other | lone => exact absurd (List.cons.inj hr).1 hc
    | nil => cases hr
  | control hcd _ ih =>
    intro r' out' h' hr
    cases h' with
    | plain hc => exact absurd (List.cons.inj hr).1.symm hc
    | control hcd' h' =>
      obtain ⟨rfl, rfl⟩ := List.cons.inj (List.cons.inj hr).2
      rw [controls_unique hcd hcd', ih h' rfl]
    | code hw _ _ _ =>
      obtain ⟨rfl, -⟩ := List.cons.inj (List.cons.inj hr).2
      simp [codeWidth_of_control hcd] at hw
    | letter hw _ _ =>
      obtain ⟨rfl, -⟩ := List.cons.inj (List.cons.inj hr).2
      simp [codeWidth_of_control hcd] at hw
    | other hno _ _ =>
      obtain ⟨rfl, -⟩ := List.cons.inj (List.cons.inj hr).2
      exact absurd hcd (hno _)
    | nil | lone => simp_all
  | code hw hlen hn _ ih =>
    intro r' out' h' hr
    cases h' with
    | plain hc => exact absurd (List.cons.inj hr).1.symm hc
    | control hcd' _ =>
      obtain ⟨rfl, -⟩ := List.cons.inj (List.cons.inj hr).2
      simp [codeWidth_of_control hcd'] at hw
    | code hw' hlen' hn' h' =>
      obtain ⟨rfl, hrest⟩ := List.cons.inj (List.cons.inj hr).2
      rw [hw] at hw'
      obtain ⟨rfl, rfl⟩ := code_split_unique hrest (by rw [hlen, hlen', Option.some.inj hw'])
      rw [names_unique hn hn', ih h' rfl]
    | letter hw' hno _ =>
      -- the letter's rule says no code follows, and one does
      obtain ⟨rfl, hrest⟩ := List.cons.inj (List.cons.inj hr).2
      rw [hw] at hw'
      exact absurd hn (hno _ _ _ hrest.symm (by rw [hlen, Option.some.inj hw']))
    | other _ hw' _ =>
      obtain ⟨rfl, -⟩ := List.cons.inj (List.cons.inj hr).2
      simp [hw] at hw'
    | nil | lone => simp_all
  | letter hw hno _ ih =>
    intro r' out' h' hr
    cases h' with
    | plain hc => exact absurd (List.cons.inj hr).1.symm hc
    | control hcd' _ =>
      obtain ⟨rfl, -⟩ := List.cons.inj (List.cons.inj hr).2
      simp [codeWidth_of_control hcd'] at hw
    | code hw' hlen' hn' _ =>
      obtain ⟨rfl, hrest⟩ := List.cons.inj (List.cons.inj hr).2
      rw [hw] at hw'
      exact absurd hn' (hno _ _ _ hrest (by rw [hlen', Option.some.inj hw']))
    | letter _ _ h' =>
      obtain ⟨rfl, rfl⟩ := List.cons.inj (List.cons.inj hr).2
      rw [ih h' rfl]
    | other _ hw' _ =>
      obtain ⟨rfl, -⟩ := List.cons.inj (List.cons.inj hr).2
      simp [hw] at hw'
    | nil | lone => simp_all
  | other hno hw _ ih =>
    intro r' out' h' hr
    cases h' with
    | plain hc => exact absurd (List.cons.inj hr).1.symm hc
    | control hcd' _ =>
      obtain ⟨rfl, -⟩ := List.cons.inj (List.cons.inj hr).2
      exact absurd hcd' (hno _)
    | code hw' _ _ _ =>
      obtain ⟨rfl, -⟩ := List.cons.inj (List.cons.inj hr).2
      simp [hw] at hw'
    | letter hw' _ _ =>
      obtain ⟨rfl, -⟩ := List.cons.inj (List.cons.inj hr).2
      simp [hw] at hw'
    | other _ _ h' =>
      obtain ⟨rfl, rfl⟩ := List.cons.inj (List.cons.inj hr).2
      rw [ih h' rfl]
    | nil | lone => simp_all
  | lone =>
    intro r' out' h' hr
    cases h' with
    | plain hc => exact absurd (List.cons.inj hr).1.symm hc
    | lone => rfl
    | nil | control | code | letter | other => simp at hr

theorem decode_of_reads {r out : List Char} (h : Reads r out) : decode r = out :=
  (reads_decode r).unique h rfl

/-- The decoder follows the escape grammar: its result is the one reading of the body. -/
theorem decode_eq_iff_reads (r out : List Char) : decode r = out ↔ Reads r out :=
  ⟨fun h => h ▸ reads_decode r, decode_of_reads⟩

/-- The escape `\x+1` is read as a code: the `+` is taken as the sign of the numeral `+1`, so
the body stands for the one character with code 1, not for the letter `x` followed by `+1`. -/
theorem plus_signed_code_is_decoded :
    Names ['+', '1'] (Char.ofNat 1) ∧ decode ['\\', 'x', '+', '1'] = [Char.ofNat 1] :=
  have hn : Names ['+', '1'] (Char.ofNat 1) :=
    ⟨['1'], .inr rfl, by simp, fun d hd => by rw [List.mem_singleton.mp hd]; decide, rfl⟩
  ⟨hn, (decode_eq_iff_reads _ _).mpr (.code (w := 2) rfl rfl hn .nil)⟩

end EcmaLite.Escape
