import Mathlib.Data.List.Find
import EcmaLite.Proofs.ScriptFuel
import EcmaLite.Proofs.ScriptRuns
import EcmaLite.Proofs.PegYields

/-!
# Words of scripts

Identifiers and keywords are *words*: a letter, `_` or `$`, then letters, digits, `_` and `$`
(`isWord`). What the word rules of the script grammar give at a position depends only on the
longest run of identifier characters there, `wordAt`:

* `keyword` succeeds exactly where that run is a keyword (`keyword_yields`). It tries the keywords
  in their order and then asks that no identifier character follow; this finds the whole run
  because no keyword comes after a keyword that is a prefix of it (`keywords_first_prefix`:
  `instanceof` is listed before `in`).
* `identifier` reads the run exactly when it is a word and no keyword (`identifier_yields`), and
  `identifier_name` exactly when it is a word (`identifierName_yields`), keywords included.
* A keyword-led rule (`word w`) succeeds only where `w` is followed by no identifier character
  (`word_some`), and so does text checked by `whole` inside an atomic body (`whole_some`).

The rules' results are stated as `Yields` facts, so each is the result of every run with enough
fuel, and any derivation at the same position must agree with it (`Yields.unique`).
-/

namespace EcmaLite

open Peg

/-! ## Words -/

/-- A word: a letter, `_` or `$`, then letters, digits, `_` and `$`. -/
def isWord : List Char → Bool
  | c :: cs => isIdentStart c && cs.all isIdentPart
  | [] => false

/-- The longest run of identifier characters at the front of a text. -/
def wordAt (cs : List Char) : List Char := cs.takeWhile isIdentPart

theorem wordAt_append_dropWhile (cs : List Char) :
    wordAt cs ++ cs.dropWhile isIdentPart = cs :=
  List.takeWhile_append_dropWhile

theorem isIdentPart_of_mem_wordAt {cs : List Char} {c : Char} (hc : c ∈ wordAt cs) :
    isIdentPart c = true :=
  List.all_eq_true.mp List.all_takeWhile c hc

/-- After the longest run of identifier characters comes none. -/
theorem head_dropWhile_isIdentPart (cs : List Char) :
    (cs.dropWhile isIdentPart).head?.any isIdentPart = false := by
  have h := List.head?_dropWhile_not isIdentPart cs
  split at h
  · next x hx => rw [hx]; simpa using h
  · next hx => rw [hx]; rfl

/-- A run of identifier characters followed by none is the longest run. -/
theorem wordAt_append {w rest : List Char} (hw : ∀ c ∈ w, isIdentPart c = true)
    (hr : rest.head?.any isIdentPart = false) : wordAt (w ++ rest) = w := by
  rw [wordAt, List.takeWhile_append_of_pos hw]
  cases rest with
  | nil => simp
  | cons c t => simp_all

theorem isIdentifierName_iff (s : String) :
    isIdentifierName s = (isWord s.toList && !keywords.contains s) := by
  unfold isIdentifierName
  split
  · next c cs hcs => simp [isWord, hcs, Bool.and_assoc]
  · next hcs => simp [isWord, hcs]

/-! ## Characters of identifiers -/

section Chars

variable {src : Array Char} {m : Mode} {p : Nat} {c : Char} {cs : List Char}

theorem range_yields_at (lo hi : Char) (h : src.toList.drop p = c :: cs) :
    Yields scriptGrammar src m (.range lo hi) p
      (if decide (lo ≤ c ∧ c ≤ hi) then some (p + 1, []) else none) := by
  have hr : Yields scriptGrammar src m (.range lo hi) p
      (if lo ≤ c ∧ c ≤ hi then some (p + 1, []) else none) :=
    .rangeSome (by rw [Peg.getElem?_of_drop h]; rfl)
  simpa only [decide_eq_true_eq] using hr

theorem range_yields_end (lo hi : Char) (h : src.toList.drop p = []) :
    Yields scriptGrammar src m (.range lo hi) p none :=
  .rangeNone (by rw [Peg.getElem?_of_drop h]; rfl)

/-- A literal of one character stands where that character does. -/
theorem charLit_yields_at {s : String} {x : Char} (hs : s.toList = [x])
    (h : src.toList.drop p = c :: cs) :
    Yields scriptGrammar src m (Peg.Expr.lit s) p (if c == x then some (p + 1, []) else none) := by
  have hlen : s.length = 1 := by rw [← String.length_toList, hs]; rfl
  have hl := (Yields.lit s : Yields scriptGrammar src m _ p _)
  rw [Peg.matchAt_eq_isPrefixOf h, hs, hlen] at hl
  simpa [List.isPrefixOf, @eq_comm _ x c] using hl

theorem charLit_yields_end {s : String} {x : Char} (hs : s.toList = [x])
    (h : src.toList.drop p = []) : Yields scriptGrammar src m (Peg.Expr.lit s) p none := by
  have hl := (Yields.lit s : Yields scriptGrammar src m _ p _)
  rw [Peg.matchAt_eq_isPrefixOf h, hs] at hl
  simpa [List.isPrefixOf] using hl

/-- A choice among character classes, at a character and at the end of the text. -/
theorem letter_yields_at (h : src.toList.drop p = c :: cs) :
    Yields scriptGrammar src m Rule.letter p
      (if decide ('a' ≤ c ∧ c ≤ 'z') || decide ('A' ≤ c ∧ c ≤ 'Z') then some (p + 1, [])
        else none) :=
  Yields.alt_flags (range_yields_at _ _ h) (range_yields_at _ _ h)

/-- A call of a rule that makes no node gives what its body gives. -/
theorem quiet_rule_yields {x : Rule} (hv : (Rule.kind x).visible = false)
    {r : Option (Nat × List (Node Rule))}
    (hb : Yields scriptGrammar src { m with atomic := m.atomic || (Rule.kind x).atomic }
      (Rule.body x) p r) :
    Yields scriptGrammar src m (.rule x) p r := by
  have h := Yields.rule hb
  have hmap : r.map (RunsTo.ruleNodes scriptGrammar m x p) = r := by
    cases r with
    | none => rfl
    | some s => simp [RunsTo.ruleNodes, scriptGrammar, hv]
  rwa [hmap] at h

/-- `ident_part` reads one character of an identifier, and fails elsewhere. -/
theorem identPart_yields (h : src.toList.drop p = cs) :
    Yields scriptGrammar src m (.rule .identPart) p
      (if cs.head?.any isIdentPart then some (p + 1, []) else none) := by
  apply quiet_rule_yields rfl
  cases cs with
  | nil =>
    have hl := Yields.altNone (range_yields_end (m := { m with atomic := m.atomic || false })
      'a' 'z' h) (range_yields_end 'A' 'Z' h)
    exact .altNone hl (.altNone (range_yields_end _ _ h)
      (.altNone (charLit_yields_end rfl h) (charLit_yields_end rfl h)))
  | cons c cs =>
    have hc : isIdentPart c =
        ((decide ('a' ≤ c ∧ c ≤ 'z') || decide ('A' ≤ c ∧ c ≤ 'Z')) ||
          (decide ('0' ≤ c ∧ c ≤ '9') || ((c == '_') || (c == '$')))) := by
      simp only [isIdentPart, isIdentStart, Bool.or_assoc, Bool.or_comm, Bool.or_left_comm]
    simp only [List.head?_cons, Option.any_some, hc]
    exact Yields.alt_flags (letter_yields_at h) (Yields.alt_flags (range_yields_at _ _ h)
      (Yields.alt_flags (charLit_yields_at rfl h) (charLit_yields_at rfl h)))

/-- `ident_start` reads one character that may start an identifier, and fails elsewhere. -/
theorem identStart_yields (h : src.toList.drop p = cs) :
    Yields scriptGrammar src m (.rule .identStart) p
      (if cs.head?.any isIdentStart then some (p + 1, []) else none) := by
  apply quiet_rule_yields rfl
  cases cs with
  | nil =>
    have hl := Yields.altNone (range_yields_end (m := { m with atomic := m.atomic || false })
      'a' 'z' h) (range_yields_end 'A' 'Z' h)
    exact .altNone hl (.altNone (charLit_yields_end rfl h) (charLit_yields_end rfl h))
  | cons c cs =>
    have hc : isIdentStart c =
        ((decide ('a' ≤ c ∧ c ≤ 'z') || decide ('A' ≤ c ∧ c ≤ 'Z')) ||
          ((c == '_') || (c == '$'))) := by
      simp only [isIdentStart, Bool.or_assoc]
    simp only [List.head?_cons, Option.any_some, hc]
    exact Yields.alt_flags (letter_yields_at h)
      (Yields.alt_flags (charLit_yields_at rfl h) (charLit_yields_at rfl h))

/-- Inside an atomic body, `ident_part*` after the first character reads the rest of a run of
identifier characters: the blanks between read nothing. -/
theorem more_identPart_yields (hm : m.atomic = true) {rest : List Char}
    (hr : rest.head?.any isIdentPart = false) :
    ∀ {u : List Char} {p : Nat}, src.toList.drop p = u ++ rest →
      (∀ c ∈ u, isIdentPart c = true) →
        Yields scriptGrammar src m (.many (.seq .blank (.rule .identPart))) p
          (some (p + u.length, []))
  | [], p, h, _ => by
    have hpart := identPart_yields (m := m) h
    rw [List.nil_append, hr] at hpart
    exact .manyNone (.seqNoneRight (.blankAtomic hm) hpart)
  | c :: u, p, h, hw => by
    have hc : isIdentPart c = true := hw c (List.mem_cons_self ..)
    have hpart := identPart_yields (m := m) h
    rw [List.cons_append, List.head?_cons, Option.any_some, hc, if_pos rfl] at hpart
    have hrest := more_identPart_yields hm hr (Peg.drop_succ_of_drop h)
      (fun x hx => hw x (List.mem_cons_of_mem _ hx))
    have hone := Yields.seqSome (.blankAtomic hm) hpart
    have hall := Yields.manySome hone (Nat.lt_succ_self p) hrest
    rw [show p + (c :: u).length = p + 1 + u.length by simp only [List.length_cons]; omega]
    simpa only [List.append_nil] using hall

/-- Inside an atomic body, `ident_part*` reads a whole run of identifier characters. -/
theorem star_identPart_yields (hm : m.atomic = true) {u rest : List Char}
    (h : src.toList.drop p = u ++ rest) (hw : ∀ c ∈ u, isIdentPart c = true)
    (hr : rest.head?.any isIdentPart = false) :
    Yields scriptGrammar src m (Peg.Expr.star (.rule .identPart)) p (some (p + u.length, [])) := by
  cases u with
  | nil =>
    have hpart := identPart_yields (m := m) h
    rw [List.nil_append, hr] at hpart
    exact .optNone (.seqNoneLeft hpart)
  | cons c u =>
    have hc : isIdentPart c = true := hw c (List.mem_cons_self ..)
    have hpart := identPart_yields (m := m) h
    rw [List.cons_append, List.head?_cons, Option.any_some, hc, if_pos rfl] at hpart
    have hrest := more_identPart_yields hm hr (Peg.drop_succ_of_drop h)
      (fun x hx => hw x (List.mem_cons_of_mem _ hx))
    have hall := Yields.optSome (Yields.seqSome hpart hrest)
    rw [show p + (c :: u).length = p + 1 + u.length by simp only [List.length_cons]; omega]
    show Yields _ _ _
      (.opt (.seq (.rule Rule.identPart) (.many (.seq .blank (.rule Rule.identPart))))) _ _
    simpa only [List.append_nil] using hall

/-- A literal that starts with a character that starts a blank is not read at a character that
does not. -/
theorem lit_none_at_nonblank {s : String} (hs : s.toList.head?.any startsBlank = true)
    (hc : startsBlank c = false) :
    s.toList.isPrefixOf (c :: cs) = false := by
  cases hx : s.toList.head? with
  | none => rw [hx] at hs; cases hs
  | some x =>
    rw [hx, Option.any_some] at hs
    refine Peg.isPrefixOf_eq_false_of_head hx ?_
    rintro ⟨⟩
    rw [hs] at hc
    cases hc

/-- Blanks read nothing before a character of an identifier. -/
theorem blank_yields_at_identPart (h : src.toList.drop p = c :: cs) (hc : isIdentPart c = true) :
    Yields scriptGrammar src m .blank p (some (p, [])) := by
  cases hm : m.atomic with
  | true => exact .blankAtomic hm
  | false =>
    have hb : startsBlank c = false := startsBlank_eq_false_of_isIdentPart hc
    -- neither whitespace nor a comment starts with a character of an identifier
    have hws : Yields scriptGrammar src { m with atomic := m.atomic || true }
        (Rule.body .whitespace) p none := by
      have hl : Yields scriptGrammar src { m with atomic := m.atomic || true } _ p _ :=
        Yields.lits [" ", "\t", "\r", "\n", "\uFEFF", "\u00A0"]
      rwa [RunsTo.firstLit_at h, List.find?_eq_none.2 fun s hs => by
        rw [lit_none_at_nonblank (by revert s; decide) hb]; decide, Option.map_none] at hl
    have hcm : Yields scriptGrammar src { m with atomic := m.atomic || true }
        (Rule.body .comment) p none := by
      have hopen : Yields scriptGrammar src { m with atomic := m.atomic || true } _ p _ :=
        Yields.lit "/*"
      have hline : Yields scriptGrammar src { m with atomic := m.atomic || true } _ p _ :=
        Yields.lit "//"
      rw [Peg.matchAt_eq_isPrefixOf h, lit_none_at_nonblank (by decide) hb] at hopen hline
      exact .altNone (.seqNoneLeft hopen) (.seqNoneLeft hline)
    exact .blank hm (.seqSome (.manyNone (quiet_rule_yields rfl hws))
      (.manyNone (.seqNoneLeft (quiet_rule_yields rfl hcm))))

end Chars

/-! ## Keywords -/

/-- The first keyword that is a prefix of a keyword is that keyword: no keyword comes after a
keyword that is a prefix of it. -/
theorem keywords_first_prefix :
    ∀ k ∈ keywords, keywords.find? (fun k' => k'.toList.isPrefixOf k.toList) = some k := by
  decide

/-- A run of identifier characters is a prefix of a text exactly when it is a prefix of the
longest such run there. -/
theorem isPrefixOf_wordAt :
    ∀ {s : List Char} (cs : List Char), (∀ c ∈ s, isIdentPart c = true) →
    s.isPrefixOf cs = s.isPrefixOf (wordAt cs)
  | [], _, _ => by simp [List.isPrefixOf]
  | _ :: _, [], _ => rfl
  | x :: s, c :: cs, hs => by
    by_cases hc : isIdentPart c = true
    · rw [wordAt, List.takeWhile_cons_of_pos hc, List.isPrefixOf, List.isPrefixOf,
        isPrefixOf_wordAt cs (fun y hy => hs y (List.mem_cons_of_mem _ hy)), wordAt]
    · have hxc : x ≠ c := fun hxc => hc (hxc ▸ hs x (List.mem_cons_self ..))
      simp [wordAt, hc, List.isPrefixOf, hxc]

theorem contains_keywords_iff {u : List Char} :
    keywords.contains (String.ofList u) = true ↔ ∃ k ∈ keywords, k.toList = u := by
  constructor
  · intro h
    exact ⟨String.ofList u, List.contains_iff_mem.mp h, String.toList_ofList⟩
  · rintro ⟨k, hk, rfl⟩
    rw [String.ofList_toList]
    exact List.contains_iff_mem.mpr hk

section Keyword

variable {src : Array Char} {m : Mode} {p : Nat} {cs : List Char}

/-- Searching the keywords at a text is searching them in the longest run of identifier
characters there, since keywords are made of such characters. -/
theorem firstKeyword_eq (h : src.toList.drop p = cs) :
    (RunsTo.firstLit src keywords p : Option (Nat × List (Node Rule))) =
      (keywords.find? fun k => k.toList.isPrefixOf (wordAt cs)).map
        fun k => (p + k.length, []) := by
  rw [RunsTo.firstLit_at h,
    List.find?_congr fun k hk => isPrefixOf_wordAt cs (keywords_isIdentPart k hk)]

/-- The body of `keyword` reads the longest run of identifier characters where it is a keyword,
and fails elsewhere. -/
theorem keywordBody_yields (hm : m.atomic = true) (h : src.toList.drop p = cs) :
    Yields scriptGrammar src m (Rule.body .keyword) p
      (if keywords.contains (String.ofList (wordAt cs)) then some (p + (wordAt cs).length, [])
        else none) := by
  have hlits : Yields scriptGrammar src m _ p _ := Yields.lits keywords
  rw [firstKeyword_eq h] at hlits
  have hsplit := wordAt_append_dropWhile cs
  split
  · next hk =>
    -- the run is a keyword, the first one the search finds, and no identifier character follows
    obtain ⟨k, hk, hku⟩ := contains_keywords_iff.mp hk
    rw [← hku, keywords_first_prefix k hk, Option.map_some] at hlits
    have hdrop : src.toList.drop (p + k.length) = cs.dropWhile isIdentPart := by
      have := Peg.drop_add_of_drop (h.trans (hsplit.symm.trans (by rw [← hku])))
      rwa [String.length_toList] at this
    have hpart := identPart_yields (m := { m with look := m.look.notAhead }) hdrop
    rw [head_dropWhile_isIdentPart] at hpart
    rw [← hku, String.length_toList]
    exact Yields.seqSome hlits (Yields.seqSome (.blankAtomic hm) (.notAheadNone hpart))
  · next hk =>
    cases hfind : keywords.find? (fun k => k.toList.isPrefixOf (wordAt cs)) with
    | none =>
      rw [hfind, Option.map_none] at hlits
      exact .seqNoneLeft hlits
    | some k =>
      -- a keyword found inside the run is a proper prefix of it, and a character of it follows
      rw [hfind, Option.map_some] at hlits
      have hk' : k ∈ keywords := List.mem_of_find?_eq_some hfind
      obtain ⟨t, ht⟩ : k.toList <+: wordAt cs := by
        simpa [List.isPrefixOf_iff_prefix] using List.find?_some hfind
      cases t with
      | nil =>
        rw [List.append_nil] at ht
        exact absurd (contains_keywords_iff.mpr ⟨k, hk', ht⟩) hk
      | cons d t =>
        have hd : isIdentPart d = true := isIdentPart_of_mem_wordAt (by rw [← ht]; simp)
        have hdrop : src.toList.drop (p + k.length) = d :: (t ++ cs.dropWhile isIdentPart) := by
          have hcs : src.toList.drop p = k.toList ++ (d :: (t ++ cs.dropWhile isIdentPart)) :=
            calc src.toList.drop p = wordAt cs ++ cs.dropWhile isIdentPart := h.trans hsplit.symm
              _ = _ := by rw [← ht]; simp
          have := Peg.drop_add_of_drop hcs
          rwa [String.length_toList] at this
        have hpart := identPart_yields (m := { m with look := m.look.notAhead }) hdrop
        rw [List.head?_cons, Option.any_some, hd, if_pos rfl] at hpart
        exact .seqNoneRight hlits (.seqNoneRight (.blankAtomic hm) (.notAheadSome hpart))

/-- `keyword` succeeds exactly where the longest run of identifier characters is a keyword. -/
theorem keyword_yields (h : src.toList.drop p = cs) :
    Yields scriptGrammar src m (.rule .keyword) p
      ((if keywords.contains (String.ofList (wordAt cs)) then
          some (p + (wordAt cs).length, []) else none).map
        (RunsTo.ruleNodes scriptGrammar m .keyword p)) :=
  .rule (keywordBody_yields (Bool.or_true _) h)

end Keyword

/-! ## Identifiers -/

section Identifier

variable {src : Array Char} {m : Mode} {p : Nat} {cs : List Char}

/-- Where no identifier character stands, no character that starts an identifier does. -/
theorem head_isIdentStart_of_wordAt_nil (hu : wordAt cs = []) :
    cs.head?.any isIdentStart = false := by
  cases cs with
  | nil => rfl
  | cons c cs =>
    by_cases hc : isIdentPart c = true
    · rw [wordAt, List.takeWhile_cons_of_pos hc] at hu
      cases hu
    · cases hs : isIdentStart c with
      | false => simp [hs]
      | true => exact absurd (isIdentStart_isIdentPart hs) hc

/-- `ident_start ident_part*`, the body of `identifier_name`, reads the longest run of identifier
characters where it is a word, and fails elsewhere. -/
theorem identifierNameBody_yields (hm : m.atomic = true) (h : src.toList.drop p = cs) :
    Yields scriptGrammar src m (Rule.body .identifierName) p
      (if isWord (wordAt cs) then some (p + (wordAt cs).length, []) else none) := by
  have hstart := identStart_yields (m := m) h
  have hsplit := wordAt_append_dropWhile cs
  cases hu : wordAt cs with
  | nil =>
    rw [head_isIdentStart_of_wordAt_nil hu] at hstart
    exact .seqNoneLeft hstart
  | cons c u =>
    rw [hu] at hsplit
    have hcs : src.toList.drop p = c :: (u ++ cs.dropWhile isIdentPart) := h.trans hsplit.symm
    have hall : ∀ x ∈ u, isIdentPart x = true := fun x hx =>
      isIdentPart_of_mem_wordAt (by rw [hu]; exact List.mem_cons_of_mem _ hx)
    rw [← h, hcs, List.head?_cons, Option.any_some] at hstart
    by_cases hc : isIdentStart c = true
    · rw [if_pos hc] at hstart
      have hstar := star_identPart_yields hm (Peg.drop_succ_of_drop hcs) hall
        (head_dropWhile_isIdentPart cs)
      rw [if_pos (by simp [isWord, hc, List.all_eq_true.mpr hall]),
        show p + (c :: u).length = p + 1 + u.length by simp only [List.length_cons]; omega]
      exact Yields.seqSome hstart (Yields.seqSome (.blankAtomic hm) hstar)
    · rw [if_neg hc] at hstart
      rw [if_neg (by simp [isWord, hc])]
      exact .seqNoneLeft hstart

/-- The body of `identifier` reads the longest run of identifier characters where it is a word
and no keyword, and fails elsewhere: a run that only starts with a keyword is read whole. -/
theorem identifierBody_yields (hm : m.atomic = true) (h : src.toList.drop p = cs) :
    Yields scriptGrammar src m (Rule.body .identifier) p
      (if isIdentifierName (String.ofList (wordAt cs)) then some (p + (wordAt cs).length, [])
        else none) := by
  rw [isIdentifierName_iff, String.toList_ofList]
  have hkw := keyword_yields (m := { m with look := m.look.notAhead }) h
  by_cases hk : keywords.contains (String.ofList (wordAt cs)) = true
  · rw [if_pos hk, Option.map_some] at hkw
    rw [hk, Bool.not_true, Bool.and_false, if_neg Bool.false_ne_true]
    exact .seqNoneLeft (.notAheadSome hkw)
  · rw [if_neg hk, Option.map_none] at hkw
    have hname := identifierNameBody_yields hm h
    have hk' : keywords.contains (String.ofList (wordAt cs)) = false := by simpa using hk
    rw [hk', Bool.not_false, Bool.and_true]
    split
    · next hw =>
      rw [if_pos hw] at hname
      exact Yields.seqSome (.notAheadNone hkw) (Yields.seqSome (.blankAtomic hm) hname)
    · next hw =>
      rw [if_neg hw] at hname
      exact .seqNoneRight (.notAheadNone hkw) (.seqNoneRight (.blankAtomic hm) hname)

/-- `identifier` reads the longest run of identifier characters where it is a word and no
keyword, and fails elsewhere. -/
theorem identifier_yields (h : src.toList.drop p = cs) :
    Yields scriptGrammar src m (.rule .identifier) p
      ((if isIdentifierName (String.ofList (wordAt cs)) then
          some (p + (wordAt cs).length, []) else none).map
        (RunsTo.ruleNodes scriptGrammar m .identifier p)) :=
  .rule (identifierBody_yields (Bool.or_true _) h)

/-- `identifier_name` reads the longest run of identifier characters where it is a word,
keywords included, and fails elsewhere. -/
theorem identifierName_yields (h : src.toList.drop p = cs) :
    Yields scriptGrammar src m (.rule .identifierName) p
      ((if isWord (wordAt cs) then some (p + (wordAt cs).length, []) else none).map
        (RunsTo.ruleNodes scriptGrammar m .identifierName p)) :=
  .rule (identifierNameBody_yields (Bool.or_true _) h)

end Identifier

/-! ## What a successful parse checked -/

section Checked

variable {src : Array Char} {m : Mode} {p q : Nat} {ns : List (Node Rule)}

/-- A settled `identifier` node read a word that is no keyword, followed by no identifier
character, and has no children. -/
theorem identifier_node_word {nd : Node Rule} (h : nd.Settled scriptGrammar src)
    (hr : nd.rule = .identifier) :
    ∃ w rest, src.toList.drop nd.start = w ++ rest ∧ nd.stop = nd.start + w.length ∧
      isIdentifierName (String.ofList w) = true ∧ rest.head?.any isIdentPart = false ∧
      nd.children = [] := by
  have hy := h.yields scriptFuelPlan
  rw [hr] at hy
  have hb : Yields scriptGrammar src ⟨.none, true⟩ (Rule.body .identifier) nd.start _ :=
    identifierBody_yields rfl rfl
  have heq := hy.unique hb
  split at heq
  · next hname =>
    obtain ⟨hstop, hchildren⟩ := Prod.mk.inj (Option.some.inj heq)
    exact ⟨_, _, (wordAt_append_dropWhile _).symm, hstop, hname,
      head_dropWhile_isIdentPart _, hchildren⟩
  · cases heq

/-- `whole e` succeeds inside an atomic body only before a character that cannot go on with an
identifier, where `e` stopped. -/
theorem whole_some {e : Peg.Expr Rule} (hm : m.atomic = true)
    (h : Yields scriptGrammar src m (Rule.whole e) p (some (q, ns))) :
    (∃ xs, Yields scriptGrammar src m e p (some (q, xs))) ∧
      (src.toList.drop q).head?.any isIdentPart = false := by
  obtain ⟨q₁, xs, ys, he, hrest, -⟩ := Yields.seq_some h
  obtain ⟨q₂, bs, zs, hb, hna, -⟩ := Yields.seq_some hrest
  obtain ⟨rfl, -⟩ := Prod.mk.inj (Option.some.inj (Yields.blank_of_atomic hb hm))
  obtain ⟨hpart, hq⟩ := Yields.notAhead_some hna
  obtain ⟨rfl, -⟩ := Prod.mk.inj hq
  refine ⟨⟨xs, he⟩, ?_⟩
  have heq := hpart.unique (identPart_yields rfl)
  split at heq
  · cases heq
  · next hno => simpa using hno

/-- A literal that no keyword spells read at `p` is no keyword. -/
theorem lit_some_not_keyword {s : String} (hs : keywords.contains s = false)
    (h : Yields scriptGrammar src m (Peg.Expr.lit s) p (some (q, ns))) :
    keywords.contains (String.ofList (src.extract p q).toList) = false := by
  obtain ⟨hmatch, rfl, -⟩ := Yields.str_some h
  rw [Peg.extract_of_matchAt hmatch, String.ofList_toList]
  exact hs

/-- An operator of `alternatives` written as a keyword is followed by no identifier character,
when each alternative is a literal that spells no keyword or a `whole` text. -/
theorem oneOf_keyword_whole {items : List (Peg.Expr Rule)} (hm : m.atomic = true)
    (hitems : ∀ x ∈ items, (∃ s, x = Peg.Expr.lit s ∧ keywords.contains s = false) ∨
      ∃ e, x = Rule.whole e)
    (h : Yields scriptGrammar src m (Peg.Expr.oneOf items) p (some (q, ns)))
    (hk : keywords.contains (String.ofList (src.extract p q).toList) = true) :
    (src.toList.drop q).head?.any isIdentPart = false := by
  obtain ⟨x, hx, hxy⟩ := Yields.oneOf_some h
  rcases hitems x hx with ⟨s, rfl, hs⟩ | ⟨e, rfl⟩
  · rw [lit_some_not_keyword hs hxy] at hk
    cases hk
  · exact (whole_some hm hxy).2

/-- A prefix operator written as a keyword (`typeof`, `void`, `delete`) is followed by no
identifier character. -/
theorem unaryOperator_keyword_whole
    (h : Yields scriptGrammar src m (.rule .unaryOperator) p (some (q, ns)))
    (hk : keywords.contains (String.ofList (src.extract p q).toList) = true) :
    (src.toList.drop q).head?.any isIdentPart = false := by
  obtain ⟨⟨q', xs⟩, hb, hs⟩ := Yields.rule_some h
  obtain ⟨rfl, -⟩ := Prod.mk.inj hs
  refine oneOf_keyword_whole (Bool.or_true _) ?_ hb hk
  intro x hx
  simp only [List.mem_cons, List.not_mem_nil, or_false] at hx
  rcases hx with rfl | rfl | rfl | rfl | rfl | rfl
  all_goals first
    | exact .inl ⟨_, rfl, by decide⟩
    | exact .inr ⟨_, rfl⟩

/-- A relational operator written as a keyword (`instanceof`, `in`) is followed by no
identifier character. -/
theorem relationalOperator_keyword_whole
    (h : Yields scriptGrammar src m (.rule .relationalOperator) p (some (q, ns)))
    (hk : keywords.contains (String.ofList (src.extract p q).toList) = true) :
    (src.toList.drop q).head?.any isIdentPart = false := by
  obtain ⟨⟨q', xs⟩, hb, hs⟩ := Yields.rule_some h
  obtain ⟨rfl, -⟩ := Prod.mk.inj hs
  refine oneOf_keyword_whole (Bool.or_true _) ?_ hb hk
  intro x hx
  simp only [List.mem_cons, List.not_mem_nil, or_false] at hx
  rcases hx with rfl | rfl | rfl | rfl | rfl | rfl
  all_goals first
    | exact .inl ⟨_, rfl, by decide⟩
    | exact .inr ⟨_, rfl⟩

/-- A keyword-led item `word w` succeeds only where `w` stands followed by no identifier
character, for a word `w` that is a prefix of no other keyword: the lookahead found a whole
keyword at `p`, and `w`, read there, can only be that keyword. -/
theorem word_some {w : String} (hw : ∀ c ∈ w.toList, isIdentPart c = true)
    (hpre : ∀ k ∈ keywords, w.toList <+: k.toList → w = k) {r : Nat × List (Node Rule)}
    (h : Yields scriptGrammar src m (Rule.word w) p (some r)) :
    ∃ rest, src.toList.drop p = w.toList ++ rest ∧ rest.head?.any isIdentPart = false := by
  obtain ⟨q₁, xs, ys, hahead, hrest, -⟩ := Yields.seq_some h
  obtain ⟨⟨s, hkw⟩, hq₁⟩ := Yields.ahead_some hahead
  rw [(Prod.mk.inj hq₁).1] at hrest
  -- the lookahead saw a keyword: the run of identifier characters at `p` is one
  have hk : keywords.contains (String.ofList (wordAt (src.toList.drop p))) = true := by
    have heq := hkw.unique (keyword_yields rfl)
    split at heq
    · next hk => exact hk
    · cases heq
  obtain ⟨k, hk, hku⟩ := contains_keywords_iff.mp hk
  obtain ⟨q₂, bs, zs, hb, hlit, -⟩ := Yields.seq_some hrest
  have hsplit := wordAt_append_dropWhile (src.toList.drop p)
  -- a keyword starts with a character of an identifier, before which blanks read nothing
  obtain ⟨c, t, hct⟩ : ∃ c t, k.toList = c :: t := by
    cases hkl : k.toList with
    | nil => exact absurd hkl ((by decide : ∀ k ∈ keywords, k.toList ≠ []) k hk)
    | cons c t => exact ⟨c, t, rfl⟩
  have hc : isIdentPart c = true := keywords_isIdentPart k hk c (by rw [hct]; simp)
  have hdrop : src.toList.drop p = c :: (t ++ (src.toList.drop p).dropWhile isIdentPart) := by
    conv_lhs => rw [← hsplit]
    rw [← hku, hct]
    rfl
  have hq₂ := (Prod.mk.inj (Option.some.inj (hb.unique (blank_yields_at_identPart hdrop hc)))).1
  rw [hq₂] at hlit
  obtain ⟨hmatch, -, -⟩ := Yields.str_some hlit
  have hprefix : w.toList <+: k.toList := by
    rw [Peg.matchAt_eq_isPrefixOf rfl, isPrefixOf_wordAt _ hw, ← hku] at hmatch
    exact List.isPrefixOf_iff_prefix.mp hmatch
  obtain rfl := hpre k hk hprefix
  exact ⟨_, by rw [hku]; exact hsplit.symm, head_dropWhile_isIdentPart _⟩

end Checked

end EcmaLite
