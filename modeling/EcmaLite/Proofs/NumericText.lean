import EcmaLite.Proofs.NumberForm

/-!
# The numeric texts

`Number.ofText` is `ToNumber` of a string. Around white space the text is read by its shape:
nothing is `0`; `Infinity`, `+Infinity` and `-Infinity` are the infinities; a decimal numeral
`[+-]? (D+ (. D*)? | . D+) ([eE] [+-]? D+)?` is the double nearest to its value, in normal form;
`0x` or `0X` followed by hexadecimal digits is their value as a whole number when it is a signed
64-bit word; and every other text is NaN. The hexadecimal reading also takes a sign between the
prefix and the digits, so `0x-1` is `-1` and `0x+f` is `15`; the decimal reading checks its
characters first, and takes nothing beyond the numeral's grammar.

The numerals are structures that carry their own well-formedness (`DecimalNumeral`,
`HexNumeral`), each with its text and its value. Reading a numeral's text gives its value
(`DecimalNumeral.decimal?_text`, `HexNumeral.signedHex?_text`), and a text that reads as a
number is a numeral's text (`exists_of_decimal?`, `exists_hexNumeral_of_signedHex?`); the
character filter passes every decimal numeral and no infinity word. So `numeric_text_grammar`
says what every string is.
-/

namespace EcmaLite.Number

/-! ## Numerals -/

/-- The characters of an optional sign: `+` for `some false`, `-` for `some true`. -/
def signText : Option Bool → List Char
  | none => []
  | some false => ['+']
  | some true => ['-']

/-- Every character is an ASCII decimal digit. -/
def AllDigits (ds : List Char) : Prop := ∀ c ∈ ds, c.isDigit = true

/-- An exponent part `[eE] [+-]? D+`. -/
structure ExponentPart where
  letter : Char
  sign : Option Bool
  digits : List Char
  letter_mem : letter = 'e' ∨ letter = 'E'
  digits_ne : digits ≠ []
  all_digits : AllDigits digits

namespace ExponentPart

/-- The text of an exponent part. -/
def text (x : ExponentPart) : List Char := x.letter :: (signText x.sign ++ x.digits)

/-- The power of ten an exponent part stands for. -/
def value (x : ExponentPart) : Int :=
  if x.sign = some true then -(digitsValue x.digits : Int) else digitsValue x.digits

end ExponentPart

/-- The text of an optional exponent part. -/
def expText (x : Option ExponentPart) : List Char := (x.map ExponentPart.text).getD []

/-- The power of ten of an optional exponent part, `0` without one. -/
def expValue (x : Option ExponentPart) : Int := (x.map ExponentPart.value).getD 0

/-- A decimal numeral `[+-]? (D+ (. D*)? | . D+) ([eE] [+-]? D+)?`: its sign, the digits before
the point, the digits after it when a point is written, and its exponent part. -/
structure DecimalNumeral where
  sign : Option Bool
  whole : List Char
  frac : Option (List Char)
  exp : Option ExponentPart
  whole_digits : AllDigits whole
  frac_digits : AllDigits (frac.getD [])
  has_digits : whole ≠ [] ∨ frac.getD [] ≠ []

namespace DecimalNumeral

/-- The text of the point and the digits after it. -/
def pointText : Option (List Char) → List Char
  | none => []
  | some ds => '.' :: ds

/-- The text of a numeral without its sign. -/
def body (n : DecimalNumeral) : List Char :=
  n.whole ++ (pointText n.frac ++ expText n.exp)

/-- The text of a numeral. -/
def text (n : DecimalNumeral) : List Char := signText n.sign ++ n.body

/-- The double nearest to the unsigned value of a numeral: its digits `m`, with `k` of them after
the point, and its exponent `e` stand for `m · 10^(e - k)`. -/
def magnitude (n : DecimalNumeral) : Float :=
  Double.ofDecimal (digitsValue (n.whole ++ n.frac.getD []))
    (expValue n.exp - (n.frac.getD []).length)

/-- The double nearest to the value of a numeral. -/
def value (n : DecimalNumeral) : Float :=
  if n.sign = some true then -n.magnitude else n.magnitude

end DecimalNumeral

/-- A hexadecimal numeral as `ToNumber` reads one: `0x` or `0X`, an optional sign, and
hexadecimal digits. -/
structure HexNumeral where
  letter : Char
  sign : Option Bool
  digits : List Char
  letter_mem : letter = 'x' ∨ letter = 'X'
  digits_ne : digits ≠ []
  all_hex : ∀ c ∈ digits, (hexDigit? c).isSome = true

namespace HexNumeral

/-- The text of a hexadecimal numeral. -/
def text (h : HexNumeral) : List Char := '0' :: h.letter :: (signText h.sign ++ h.digits)

/-- The value of the digits. -/
def magnitude (h : HexNumeral) : Nat :=
  h.digits.foldl (fun acc c => acc * 16 + (hexDigit? c).getD 0) 0

/-- The signed value of a hexadecimal numeral. -/
def value (h : HexNumeral) : Int :=
  if h.sign = some true then -(h.magnitude : Int) else h.magnitude

/-- The value is a signed 64-bit word. -/
def Fits (h : HexNumeral) : Prop := wordMin ≤ h.value ∧ h.value ≤ wordMax

instance (h : HexNumeral) : Decidable h.Fits :=
  inferInstanceAs (Decidable (wordMin ≤ h.value ∧ h.value ≤ wordMax))

end HexNumeral

/-! ## Runs of digits -/

/-- Text that does not go on with a decimal digit. -/
def NoDigitHead (r : List Char) : Prop := ∀ c ∈ r.head?, c.isDigit = false

theorem spanDigits_append {ds r : List Char} (hd : AllDigits ds) (hr : NoDigitHead r) :
    spanDigits (ds ++ r) = (ds, r) := by
  induction ds with
  | nil =>
    cases r with
    | nil => rfl
    | cons c rest => simp [spanDigits, hr c rfl]
  | cons c ds ih =>
    have hc := hd c (by simp)
    have hrest := ih fun x hx => hd x (by simp [hx])
    simp only [spanDigits, Prod.mk.injEq] at hrest
    simp [spanDigits, hc, hrest]

/-- The run of digits in front and the rest: together the text, the rest not going on with a
digit. -/
theorem spanDigits_spec (cs : List Char) :
    (spanDigits cs).1 ++ (spanDigits cs).2 = cs ∧ AllDigits (spanDigits cs).1 ∧
      NoDigitHead (spanDigits cs).2 := by
  refine ⟨List.takeWhile_append_dropWhile, fun c hc => List.mem_takeWhile_imp hc, ?_⟩
  intro c hc
  have h := List.head?_dropWhile_not Char.isDigit cs
  simp only [spanDigits] at hc
  rw [Option.mem_def] at hc
  rw [hc] at h
  exact h

theorem noDigitHead_cons {c : Char} {r : List Char} (h : c.isDigit = false) :
    NoDigitHead (c :: r) := by
  intro x hx
  cases hx
  exact h

/-! ## Reading decimal numerals -/

theorem signText_append_ne (sign : Option Bool) {ds : List Char} (hd : ds ≠ []) :
    signText sign ++ ds ≠ [] := by
  cases sign with
  | none => simpa [signText] using hd
  | some b => cases b <;> simp [signText]

theorem digits_of_not_empty_or_bad {ds : List Char}
    (h : ¬(ds.isEmpty = true ∨ (!ds.all Char.isDigit) = true)) : ds ≠ [] ∧ AllDigits ds := by
  simp only [List.isEmpty_iff, Bool.not_eq_eq_eq_not, Bool.not_true, List.all_eq_false,
    not_or, not_exists, not_and] at h
  exact ⟨h.1, fun c hc => not_not.mp (h.2 c hc)⟩

theorem ExponentPart.exponent?_text (x : ExponentPart) : exponent? x.text = some x.value := by
  obtain ⟨l, sign, ds, hl, hne, hds⟩ := x
  have hall : ds.all Char.isDigit = true := List.all_eq_true.mpr hds
  -- the digits start with a digit, so no sign is read from them
  obtain ⟨d, rest, rfl⟩ := List.exists_cons_of_ne_nil hne
  have hd : d.isDigit = true := hds d (by simp)
  have hplus : d ≠ '+' := by rintro rfl; exact absurd hd (by decide)
  have hminus : d ≠ '-' := by rintro rfl; exact absurd hd (by decide)
  rcases sign with _ | _ | _ <;>
    simp_all [ExponentPart.text, ExponentPart.value, exponent?, signText]

theorem exponent?_expText (x : Option ExponentPart) :
    exponent? (expText x) = some (expValue x) := by
  cases x with
  | none => rfl
  | some x => exact x.exponent?_text

theorem expText_head (x : Option ExponentPart) :
    ∀ c ∈ (expText x).head?, c = 'e' ∨ c = 'E' := by
  intro c hc
  cases x with
  | none => cases hc
  | some x =>
    cases hc
    exact x.letter_mem

theorem noDigitHead_expText (x : Option ExponentPart) : NoDigitHead (expText x) := by
  intro c hc
  rcases expText_head x c hc with rfl | rfl <;> rfl

/-- What `exponent?` reads is an optional exponent part, with its value. -/
theorem exists_of_exponent? {r : List Char} {e : Int} (h : exponent? r = some e) :
    ∃ x : Option ExponentPart, expText x = r ∧ expValue x = e := by
  cases r with
  | nil =>
    simp only [exponent?, Option.some.injEq] at h
    exact ⟨none, rfl, h⟩
  | cons c rest =>
    simp only [exponent?] at h
    split at h
    · next hc =>
      -- the sign `exponent?` takes, then the digits
      split at h
      · next ds =>
        split at h
        · cases h
        · next hds =>
          obtain ⟨hne, hall⟩ := digits_of_not_empty_or_bad hds
          exact ⟨some ⟨c, some false, ds, hc, hne, hall⟩, rfl,
            by simpa [expValue, ExponentPart.value] using Option.some.inj h⟩
      · next ds =>
        split at h
        · cases h
        · next hds =>
          obtain ⟨hne, hall⟩ := digits_of_not_empty_or_bad hds
          exact ⟨some ⟨c, some true, ds, hc, hne, hall⟩, rfl,
            by simpa [expValue, ExponentPart.value] using Option.some.inj h⟩
      · split at h
        · cases h
        · next hds =>
          obtain ⟨hne, hall⟩ := digits_of_not_empty_or_bad hds
          exact ⟨some ⟨c, none, rest, hc, hne, hall⟩, rfl,
            by simpa [expValue, ExponentPart.value] using Option.some.inj h⟩
    · cases h

theorem scaled?_expText (whole frac : List Char) (x : Option ExponentPart) :
    scaled? whole frac (expText x) =
      some (Double.ofDecimal (digitsValue (whole ++ frac)) (expValue x - frac.length)) := by
  simp [scaled?, exponent?_expText]

/-- With a point: the digits before it, the digits after it, and the rest after those. -/
theorem unsignedDecimal?_point {whole frac r : List Char} (hw : AllDigits whole)
    (hf : AllDigits frac) (hr : NoDigitHead r) (hne : whole ≠ [] ∨ frac ≠ []) :
    unsignedDecimal? (whole ++ '.' :: (frac ++ r)) = scaled? whole frac r := by
  have hpoint : NoDigitHead ('.' :: (frac ++ r)) := noDigitHead_cons rfl
  simp only [unsignedDecimal?, spanDigits_append hw hpoint, spanDigits_append hf hr]
  rw [if_neg]
  simp only [List.isEmpty_iff, not_and_or]
  exact hne

/-- Without a point: the digits, and a rest that starts with no point. -/
theorem unsignedDecimal?_no_point {whole r : List Char} (hw : AllDigits whole)
    (hr : NoDigitHead r) (hdot : ∀ c ∈ r.head?, c ≠ '.') (hne : whole ≠ []) :
    unsignedDecimal? (whole ++ r) = scaled? whole [] r := by
  simp only [unsignedDecimal?, spanDigits_append hw hr]
  split
  · next rest =>
    exact absurd rfl (hdot '.' rfl)
  · rw [if_neg (by simpa [List.isEmpty_iff] using hne)]

namespace DecimalNumeral

theorem unsignedDecimal?_body (n : DecimalNumeral) :
    unsignedDecimal? n.body = some n.magnitude := by
  obtain ⟨sign, whole, frac, exp, hw, hf, hd⟩ := n
  cases frac with
  | none =>
    have hdot : ∀ c ∈ (expText exp).head?, c ≠ '.' := by
      intro c hc
      rcases expText_head exp c hc with rfl | rfl <;> decide
    have h := unsignedDecimal?_no_point hw (noDigitHead_expText exp) hdot (by simpa using hd)
    simp only [body, pointText, List.nil_append, magnitude, Option.getD_none, List.append_nil,
      List.length_nil, Nat.cast_zero, sub_zero] at h ⊢
    rw [h, scaled?_expText]
    simp
  | some ds =>
    have h := unsignedDecimal?_point hw hf (noDigitHead_expText exp) hd
    simp only [body, pointText, magnitude, Option.getD_some, List.cons_append] at h ⊢
    rw [h, scaled?_expText]

/-- A text that reads as an unsigned decimal numeral is the body of one, and reads as its
magnitude. -/
theorem exists_of_unsignedDecimal? {cs : List Char} {f : Float} (h : unsignedDecimal? cs = some f) :
    ∃ n : DecimalNumeral, n.sign = none ∧ n.body = cs ∧ n.magnitude = f := by
  obtain ⟨hcat, hw, hr⟩ := spanDigits_spec cs
  unfold unsignedDecimal? at h
  generalize spanDigits cs = sp at h hcat hw hr
  obtain ⟨whole, rest⟩ := sp
  dsimp only at h hcat hw hr
  subst hcat
  split at h
  · next r =>
    -- a point: the digits after it, then the exponent part
    obtain ⟨hcat, hf, hr'⟩ := spanDigits_spec r
    generalize spanDigits r = sp at h hcat hf hr'
    obtain ⟨frac, rest⟩ := sp
    dsimp only at h hcat hf hr'
    subst hcat
    split at h
    · cases h
    · next hne =>
      simp only [scaled?, Option.map_eq_some_iff] at h
      obtain ⟨e, he, rfl⟩ := h
      obtain ⟨x, rfl, rfl⟩ := exists_of_exponent? he
      have hd : whole ≠ [] ∨ frac ≠ [] :=
        not_and_or.mp (by simpa only [List.isEmpty_iff] using hne)
      exact ⟨⟨none, whole, some frac, x, hw, hf, hd⟩, rfl, rfl, rfl⟩
  · next hnot =>
    split at h
    · cases h
    · next hne =>
      simp only [scaled?, Option.map_eq_some_iff] at h
      obtain ⟨e, he, rfl⟩ := h
      obtain ⟨x, rfl, rfl⟩ := exists_of_exponent? he
      have hd : whole ≠ [] ∨ ([] : List Char) ≠ [] :=
        .inl (by simpa [List.isEmpty_iff] using hne)
      refine ⟨⟨none, whole, none, x, hw, (fun _ h => nomatch h), hd⟩, rfl, rfl, ?_⟩
      simp [magnitude, expValue]

/-- A body starts with a digit or a point. -/
theorem body_head (n : DecimalNumeral) :
    ∃ c rest, n.body = c :: rest ∧ (c.isDigit = true ∨ c = '.') := by
  obtain ⟨sign, whole, frac, exp, hw, hf, hd⟩ := n
  cases whole with
  | cons c rest => exact ⟨c, _, rfl, .inl (hw c (by simp))⟩
  | nil =>
    cases frac with
    | none => simp at hd
    | some ds => exact ⟨'.', _, rfl, .inr rfl⟩

theorem body_head_not_sign (n : DecimalNumeral) :
    ∀ c ∈ n.body.head?, c ≠ '+' ∧ c ≠ '-' := by
  obtain ⟨c, rest, hbody, hc⟩ := n.body_head
  rw [hbody]
  rintro x ⟨⟩
  rcases hc with hc | rfl
  · constructor <;> rintro rfl <;> exact absurd hc (by decide)
  · decide

end DecimalNumeral

/-- Text that starts with no sign is read as an unsigned numeral. -/
theorem decimal?_of_not_sign {cs : List Char} (h : ∀ c ∈ cs.head?, c ≠ '+' ∧ c ≠ '-') :
    decimal? cs = unsignedDecimal? cs := by
  unfold decimal?
  split
  · exact absurd rfl (h '+' rfl).1
  · exact absurd rfl (h '-' rfl).2
  · rfl

theorem DecimalNumeral.decimal?_text (n : DecimalNumeral) : decimal? n.text = some n.value := by
  obtain ⟨sign, whole, frac, exp, hw, hf, hd⟩ := n
  rcases sign with _ | _ | _
  · rw [DecimalNumeral.text, signText, List.nil_append,
      decimal?_of_not_sign (DecimalNumeral.body_head_not_sign _),
      DecimalNumeral.unsignedDecimal?_body]
    rfl
  · simp only [DecimalNumeral.text, signText, List.cons_append, List.nil_append, decimal?,
      DecimalNumeral.unsignedDecimal?_body, DecimalNumeral.value]
    rfl
  · simp only [DecimalNumeral.text, signText, List.cons_append, List.nil_append, decimal?,
      DecimalNumeral.unsignedDecimal?_body, DecimalNumeral.value]
    rfl

/-- A text that reads as a decimal numeral is the text of one, and reads as its value. -/
theorem exists_of_decimal? {t : List Char} {f : Float} (h : decimal? t = some f) :
    ∃ n : DecimalNumeral, n.text = t ∧ n.value = f := by
  unfold decimal? at h
  split at h
  · next r =>
    obtain ⟨n, -, hbody, hmag⟩ := DecimalNumeral.exists_of_unsignedDecimal? h
    refine ⟨{ n with sign := some false }, ?_, hmag⟩
    show signText (some false) ++ n.body = _
    rw [hbody]
    rfl
  · next r =>
    obtain ⟨g, hg, rfl⟩ := Option.map_eq_some_iff.mp h
    obtain ⟨n, -, hbody, rfl⟩ := DecimalNumeral.exists_of_unsignedDecimal? hg
    refine ⟨{ n with sign := some true }, ?_, rfl⟩
    show signText (some true) ++ n.body = _
    rw [hbody]
    rfl
  · obtain ⟨n, hsign, hbody, hmag⟩ := DecimalNumeral.exists_of_unsignedDecimal? h
    refine ⟨n, by simp [DecimalNumeral.text, hsign, signText, hbody], ?_⟩
    simp [DecimalNumeral.value, hsign, hmag]

/-! ## The character filter -/

theorem isNumeralChar_of_isDigit {c : Char} (h : c.isDigit = true) : isNumeralChar c = true := by
  simp [isNumeralChar, h]

theorem signText_numeral (sign : Option Bool) :
    ∀ c ∈ signText sign, isNumeralChar c = true := by
  rcases sign with _ | _ | _ <;> simp [signText, isNumeralChar]

/-- Every character of a decimal numeral passes the filter `ToNumber` puts before the reading. -/
theorem DecimalNumeral.all_isNumeralChar (n : DecimalNumeral) :
    n.text.all isNumeralChar = true := by
  obtain ⟨sign, whole, frac, exp, hw, hf, hd⟩ := n
  rw [List.all_eq_true]
  intro c hc
  simp only [DecimalNumeral.text, DecimalNumeral.body, List.mem_append] at hc
  rcases hc with hc | hc | hc | hc
  · exact signText_numeral sign c hc
  · exact isNumeralChar_of_isDigit (hw c hc)
  · cases frac with
    | none => cases hc
    | some ds =>
      rcases List.mem_cons.mp hc with rfl | hc
      · rfl
      · exact isNumeralChar_of_isDigit (hf c hc)
  · cases exp with
    | none => cases hc
    | some x =>
      rcases List.mem_cons.mp hc with rfl | hc
      · rcases x.letter_mem with h | h <;> simp [h, isNumeralChar]
      · rcases List.mem_append.mp hc with hc | hc
        · exact signText_numeral x.sign c hc
        · exact isNumeralChar_of_isDigit (x.all_digits c hc)

/-- The words of the infinities do not pass the filter. -/
theorem DecimalNumeral.text_ne_infinity (n : DecimalNumeral) :
    n.text ≠ "Infinity".toList ∧ n.text ≠ "+Infinity".toList ∧
      n.text ≠ "-Infinity".toList := by
  have h := n.all_isNumeralChar
  refine ⟨?_, ?_, ?_⟩ <;> intro he <;> rw [he] at h <;> exact absurd h (by decide)

/-- A decimal numeral is not read as hexadecimal: its second character passes the filter. -/
theorem DecimalNumeral.text_not_hexPrefix (n : DecimalNumeral) {x : Char} {ds : List Char}
    (he : n.text = '0' :: x :: ds) : ¬(x = 'x' ∨ x = 'X') := by
  have h := n.all_isNumeralChar
  rw [he] at h
  have hx : isNumeralChar x = true := List.all_eq_true.mp h x (by simp)
  rintro (rfl | rfl) <;> exact absurd hx (by decide)

/-! ## Reading hexadecimal numerals -/

theorem foldlM_hexDigit {ds : List Char} (hall : ∀ c ∈ ds, (hexDigit? c).isSome = true)
    (a : Nat) :
    ds.foldlM (fun acc c => (hexDigit? c).map (acc * 16 + ·)) a =
      some (ds.foldl (fun acc c => acc * 16 + (hexDigit? c).getD 0) a) := by
  induction ds generalizing a with
  | nil => rfl
  | cons c ds ih =>
    obtain ⟨v, hv⟩ := Option.isSome_iff_exists.mp (hall c (by simp))
    simp [List.foldlM_cons, hv, ih (fun x hx => hall x (by simp [hx]))]

theorem hexDigits_of_foldlM {ds : List Char} {a v : Nat}
    (h : ds.foldlM (fun acc c => (hexDigit? c).map (acc * 16 + ·)) a = some v) :
    ∀ c ∈ ds, (hexDigit? c).isSome = true := by
  induction ds generalizing a with
  | nil => simp
  | cons c ds ih =>
    cases hc : hexDigit? c with
    | none => simp [List.foldlM_cons, hc] at h
    | some d =>
      simp only [List.foldlM_cons, hc, Option.map_some, Option.bind_eq_bind,
        Option.bind_some] at h
      intro x hx
      rcases List.mem_cons.mp hx with rfl | hx
      · simp [hc]
      · exact ih h x hx

theorem HexNumeral.hexValue?_digits (h : HexNumeral) : hexValue? h.digits = some h.magnitude := by
  unfold hexValue?
  rw [if_neg (by simpa using h.digits_ne)]
  exact foldlM_hexDigit h.all_hex 0

theorem HexNumeral.signedHex?_text (h : HexNumeral) :
    signedHex? (signText h.sign ++ h.digits) = if h.Fits then some h.value else none := by
  obtain ⟨x, sign, ds, hx, hne, hall⟩ := h
  have hv := HexNumeral.hexValue?_digits ⟨x, sign, ds, hx, hne, hall⟩
  simp only [HexNumeral.magnitude] at hv
  unfold signedHex?
  split
  next neg ds' heq =>
  dsimp only at heq ⊢
  rcases sign with _ | _ | _
  · -- the first digit is no sign
    obtain ⟨d, rest, rfl⟩ := List.exists_cons_of_ne_nil hne
    have hd : (hexDigit? d).isSome = true := hall d (by simp)
    simp only [signText, List.nil_append] at heq
    split at heq
    · next r heq' =>
      rw [(List.cons.inj heq').1] at hd
      exact absurd hd (by decide)
    · next r heq' =>
      rw [(List.cons.inj heq').1] at hd
      exact absurd hd (by decide)
    · obtain ⟨rfl, rfl⟩ := Prod.mk.inj heq
      simp [hv, HexNumeral.Fits, HexNumeral.value, HexNumeral.magnitude]
  · simp only [signText, List.cons_append, List.nil_append] at heq
    obtain ⟨rfl, rfl⟩ := Prod.mk.inj heq
    simp [hv, HexNumeral.Fits, HexNumeral.value, HexNumeral.magnitude]
  · simp only [signText, List.cons_append, List.nil_append] at heq
    obtain ⟨rfl, rfl⟩ := Prod.mk.inj heq
    simp [hv, HexNumeral.Fits, HexNumeral.value, HexNumeral.magnitude]

theorem hexDigits_of_hexValue? {ds : List Char} {v : Nat} (h : hexValue? ds = some v) :
    ds ≠ [] ∧ ∀ c ∈ ds, (hexDigit? c).isSome = true := by
  unfold hexValue? at h
  split at h
  · cases h
  · next hne => exact ⟨by simpa using hne, hexDigits_of_foldlM h⟩

/-- Text after `0x` that `signedHex?` reads makes a hexadecimal numeral: an optional sign and
hexadecimal digits. -/
theorem exists_hexNumeral_of_signedHex? {x : Char} {ds : List Char} {i : Int}
    (hx : x = 'x' ∨ x = 'X') (h : signedHex? ds = some i) :
    ∃ hn : HexNumeral, hn.text = '0' :: x :: ds := by
  unfold signedHex? at h
  split at h
  next neg digits heq =>
  obtain ⟨v, hv, -⟩ := Option.bind_eq_some_iff.mp h
  obtain ⟨hne, hall⟩ := hexDigits_of_hexValue? hv
  split at heq
  · next r =>
    obtain ⟨-, rfl⟩ := Prod.mk.inj heq
    exact ⟨⟨x, some false, r, hx, hne, hall⟩, rfl⟩
  · next r =>
    obtain ⟨-, rfl⟩ := Prod.mk.inj heq
    exact ⟨⟨x, some true, r, hx, hne, hall⟩, rfl⟩
  · obtain ⟨-, rfl⟩ := Prod.mk.inj heq
    exact ⟨⟨x, none, ds, hx, hne, hall⟩, rfl⟩

/-! ## `ToNumber` of a text -/

section OfText

variable {s : String} {t : List Char}

theorem ofText_of_empty (ht : trimWhiteSpace s.toList = []) : ofText s = .int 0 := by
  simp [ofText, ht]

/-- After `0x`, the signed hexadecimal reading. -/
theorem ofText_of_hexPrefix {x : Char} {ds : List Char}
    (ht : trimWhiteSpace s.toList = '0' :: x :: ds) (hx : x = 'x' ∨ x = 'X') :
    ofText s = (signedHex? ds).elim .nan .int := by
  simp only [ofText, ht, if_pos hx]
  cases signedHex? ds <;> rfl

/-- Without `0x`, the decimal reading. -/
theorem ofText_of_not_hexPrefix (ht : trimWhiteSpace s.toList = t) (hne : t ≠ [])
    (hhex : ∀ x ds, t = '0' :: x :: ds → ¬(x = 'x' ∨ x = 'X')) :
    ofText s = ofText.ofDecimalText t := by
  obtain ⟨c, rest, rfl⟩ := List.exists_cons_of_ne_nil hne
  simp only [ofText, ht]
  split
  · rw [if_neg (hhex _ _ rfl)]
  · rfl

theorem ofDecimalText_posInf (h : t = "Infinity".toList ∨ t = "+Infinity".toList) :
    ofText.ofDecimalText t = .posInf := by
  rw [ofText.ofDecimalText, if_pos h]

theorem ofDecimalText_negInf : ofText.ofDecimalText "-Infinity".toList = .negInf := by
  unfold ofText.ofDecimalText
  rw [if_neg (by decide), if_pos rfl]

theorem DecimalNumeral.ofDecimalText_text (n : DecimalNumeral) :
    ofText.ofDecimalText n.text = ofFloat n.value := by
  obtain ⟨h1, h2, h3⟩ := n.text_ne_infinity
  unfold ofText.ofDecimalText
  rw [if_neg (not_or.mpr ⟨h1, h2⟩), if_neg h3, n.all_isNumeralChar, n.decimal?_text]
  rfl

/-- A text that is no infinity and no decimal numeral is NaN. -/
theorem ofDecimalText_of_not_numeral (hinf : t ∉ ["Infinity".toList, "+Infinity".toList,
      "-Infinity".toList]) (hnum : ∀ n : DecimalNumeral, n.text ≠ t) :
    ofText.ofDecimalText t = .nan := by
  simp only [List.mem_cons, List.not_mem_nil, or_false, not_or] at hinf
  obtain ⟨h1, h2, h3⟩ := hinf
  unfold ofText.ofDecimalText
  rw [if_neg (not_or.mpr ⟨h1, h2⟩), if_neg h3]
  split
  · rfl
  · split
    · next f hf =>
      obtain ⟨n, hn, -⟩ := exists_of_decimal? hf
      exact absurd hn (hnum n)
    · rfl

/-- A text that does not start with `0` has no `0x` prefix. -/
theorem not_hexPrefix_of_head (h : t.head? ≠ some '0') :
    ∀ x ds, t = '0' :: x :: ds → ¬(x = 'x' ∨ x = 'X') := by
  rintro x ds rfl
  exact absurd rfl h

theorem DecimalNumeral.text_ne_nil (n : DecimalNumeral) : n.text ≠ [] := by
  obtain ⟨c, rest, hbody, -⟩ := n.body_head
  rw [DecimalNumeral.text, hbody]
  exact signText_append_ne n.sign (List.cons_ne_nil c rest)

end OfText

end EcmaLite.Number

namespace EcmaLite

open Number

/-- `ToNumber` of a string reads the text `t` left when white space is trimmed from either end:
nothing is `0`; `Infinity`, `+Infinity` and `-Infinity` are the infinities; a decimal numeral is
its nearest double, in normal form; `0x` or `0X`, an optional sign and hexadecimal digits are
their signed value when it is a signed 64-bit word, and NaN when it is not; every other text is
NaN. -/
theorem numeric_text_grammar (s : String) (t : List Char) (ht : trimWhiteSpace s.toList = t) :
    (t = [] → (Value.str s).toNumber = .int 0) ∧
    (t = "Infinity".toList ∨ t = "+Infinity".toList → (Value.str s).toNumber = .posInf) ∧
    (t = "-Infinity".toList → (Value.str s).toNumber = .negInf) ∧
    (∀ n : DecimalNumeral, n.text = t → (Value.str s).toNumber = ofFloat n.value) ∧
    (∀ h : HexNumeral, h.text = t →
      (Value.str s).toNumber = if h.Fits then .int h.value else .nan) ∧
    (t ≠ [] → t ∉ ["Infinity".toList, "+Infinity".toList, "-Infinity".toList] →
      (∀ n : DecimalNumeral, n.text ≠ t) → (∀ h : HexNumeral, h.text ≠ t) →
      (Value.str s).toNumber = .nan) := by
  show (t = [] → ofText s = _) ∧ (_ → ofText s = _) ∧ (_ → ofText s = _) ∧
    (∀ n : DecimalNumeral, _ → ofText s = _) ∧ (∀ h : HexNumeral, _ → ofText s = _) ∧
    (_ → _ → _ → _ → ofText s = _)
  subst ht
  refine ⟨ofText_of_empty, fun hinf => ?_, fun hinf => ?_, fun n hn => ?_, fun h hh => ?_,
    fun hne hinf hnum hhex => ?_⟩
  · -- `Infinity` and `+Infinity` start with no `0`
    have hhead : (trimWhiteSpace s.toList).head? ≠ some '0' := by
      rcases hinf with h | h <;> rw [h] <;> decide
    rw [ofText_of_not_hexPrefix rfl (by rcases hinf with h | h <;> rw [h] <;> decide)
      (not_hexPrefix_of_head hhead), ofDecimalText_posInf hinf]
  · have hhead : (trimWhiteSpace s.toList).head? ≠ some '0' := by rw [hinf]; decide
    rw [ofText_of_not_hexPrefix rfl (by rw [hinf]; decide) (not_hexPrefix_of_head hhead), hinf,
      ofDecimalText_negInf]
  · rw [ofText_of_not_hexPrefix rfl (hn ▸ n.text_ne_nil)
        (hn ▸ fun _ _ => n.text_not_hexPrefix),
      ← hn, n.ofDecimalText_text]
  · rw [ofText_of_hexPrefix hh.symm h.letter_mem, h.signedHex?_text]
    split <;> rfl
  · -- with `0x`, only a hexadecimal numeral reads; without, only a decimal one
    by_cases hpre : ∃ x ds, trimWhiteSpace s.toList = '0' :: x :: ds ∧ (x = 'x' ∨ x = 'X')
    · obtain ⟨x, ds, hpre, hx⟩ := hpre
      rw [ofText_of_hexPrefix hpre hx]
      cases hi : signedHex? ds with
      | none => rfl
      | some i =>
        obtain ⟨hn, hntext⟩ := exists_hexNumeral_of_signedHex? hx hi
        exact absurd (hntext.trans hpre.symm) (hhex hn)
    · have hnot : ∀ x ds, trimWhiteSpace s.toList = '0' :: x :: ds → ¬(x = 'x' ∨ x = 'X') :=
        fun x ds he hx => hpre ⟨x, ds, he, hx⟩
      rw [ofText_of_not_hexPrefix rfl hne hnot, ofDecimalText_of_not_numeral hinf hnum]

/-- `0x-1` reads as `-1`: the hexadecimal reading takes a sign after the prefix. -/
theorem signed_hex_text_reads_as_negative :
    trimWhiteSpace "0x-1".toList = "0x-1".toList ∧ (Value.str "0x-1").toNumber = .int (-1) := by
  have ht : trimWhiteSpace "0x-1".toList = "0x-1".toList := by decide
  refine ⟨ht, ?_⟩
  let hn : HexNumeral := ⟨'x', some true, ['1'], .inl rfl, List.cons_ne_nil _ _,
    fun c hc => by rw [List.mem_singleton.mp hc]; decide⟩
  have htext : hn.text = "0x-1".toList := by
    show ['0', 'x', '-', '1'] = _
    decide
  have h := (numeric_text_grammar "0x-1" _ ht).2.2.2.2.1 hn htext
  rw [h, if_pos (by decide)]
  rfl

end EcmaLite
