import EcmaLite.Peg

/-!
# What a successful run reads

`run` carries fuel, a mode that says whether nodes are made, and the record of the furthest
failures. `Reads g src m e p q ns` forgets the fuel and the record and keeps what a
successful run can give: `e`, read in mode `m` from `p`, stops at `q` with the nodes `ns`.
Lookaheads and repetitions that stop are not checked, so the relation says less than `run` does,
but every success of `run` is one of its readings (`reads_of_run`), which is all a proof about
the nodes of a successful parse needs.

* Inside an atomic body or a lookahead a reading gives no nodes (`Reads.nil_of_quiet`).
* A repetition gives the nodes of its parts one after the other (`Reads.many_parts`).
* An atomic body made of literal text and choices reads one of its spellings, and the characters
  it covers are that spelling (`Reads.spelled`, `extract_of_matchAt`).
-/

namespace EcmaLite.Peg

variable {ρ : Type}

/-- The readings a successful run can give: running `e` in mode `m` from `p` reaches `q` and
gives the nodes `ns`. Lookaheads and repetitions that stop are not checked. -/
inductive Reads (g : Grammar ρ) (src : Array Char) : Mode → Peg.Expr ρ → Nat → Nat → List (Node ρ) → Prop
  | str {m s p} : matchAt src s p = true → Reads g src m (.str s) p (p + s.length) []
  | range {m lo hi p c} : src[p]? = some c → lo ≤ c → c ≤ hi →
      Reads g src m (.range lo hi) p (p + 1) []
  | any {m p} : p < src.size → Reads g src m .any p (p + 1) []
  | start {m} : Reads g src m .start 0 0 []
  | finish {m} : Reads g src m .finish src.size src.size []
  | blankAtomic {m p} : m.atomic = true → Reads g src m .blank p p []
  | blank {m p q ns} : m.atomic = false → Reads g src m g.blank p q ns →
      Reads g src m .blank p q ns
  | seq {m a b p q r xs ys} : Reads g src m a p q xs → Reads g src m b q r ys →
      Reads g src m (.seq a b) p r (xs ++ ys)
  | altLeft {m a b p q xs} : Reads g src m a p q xs → Reads g src m (.alt a b) p q xs
  | altRight {m a b p q xs} : Reads g src m b p q xs → Reads g src m (.alt a b) p q xs
  | optSome {m a p q xs} : Reads g src m a p q xs → Reads g src m (.opt a) p q xs
  | optNone {m a p} : Reads g src m (.opt a) p p []
  | manyNil {m a p} : Reads g src m (.many a) p p []
  | manyStop {m a p q xs} : Reads g src m a p q xs → Reads g src m (.many a) p q xs
  | manyCons {m a p q r xs ys} : Reads g src m a p q xs → Reads g src m (.many a) q r ys →
      Reads g src m (.many a) p r (xs ++ ys)
  | ahead {m a p} : Reads g src m (.ahead a) p p []
  | notAhead {m a p} : Reads g src m (.notAhead a) p p []
  | rule {m r p q xs} :
      Reads g src { m with atomic := m.atomic || (g.kind r).atomic } (g.body r) p q xs →
      Reads g src m (.rule r) p q
        (if (g.kind r).visible = true ∧ m.look = .none ∧ m.atomic = false then [⟨r, p, q, xs⟩]
         else xs)

variable {g : Grammar ρ} {src : Array Char}

theorem outcome_ok_inj {t t' : Attempts ρ} {a q : Nat} {xs ns : List (Node ρ)}
    (h : ((t, some (a, xs)) : Outcome ρ) = (t', some (q, ns))) : a = q ∧ xs = ns := by
  simp only [Prod.mk.injEq, Option.some.injEq] at h
  exact h.2

theorem reads_of_run : ∀ {n : Nat} {m : Mode} {e : Peg.Expr ρ} {p : Nat} {t t' : Attempts ρ}
    {q : Nat} {ns : List (Node ρ)},
    run g src n m e p t = (t', some (q, ns)) → Reads g src m e p q ns
  | 0, _, _, _, _, _, _, _, h => by simp [run] at h
  | n + 1, m, e, p, t, t', q, ns, h => by
    cases e with
    | str s =>
      simp only [run] at h
      split at h
      · next hm =>
        obtain ⟨rfl, rfl⟩ := outcome_ok_inj h
        exact .str hm
      · simp at h
    | range lo hi =>
      simp only [run] at h
      split at h
      · next c hc =>
        split at h
        · next hin =>
          obtain ⟨rfl, rfl⟩ := outcome_ok_inj h
          exact .range hc hin.1 hin.2
        · simp at h
      · simp at h
    | any =>
      simp only [run] at h
      split at h
      · next hp =>
        obtain ⟨rfl, rfl⟩ := outcome_ok_inj h
        exact .any hp
      · simp at h
    | start =>
      simp only [run] at h
      split at h
      · next hp =>
        obtain ⟨rfl, rfl⟩ := outcome_ok_inj h
        subst hp
        exact .start
      · simp at h
    | finish =>
      simp only [run] at h
      split at h
      · next hp =>
        obtain ⟨rfl, rfl⟩ := outcome_ok_inj h
        subst hp
        exact .finish
      · simp at h
    | blank =>
      simp only [run] at h
      split at h
      · next ha =>
        obtain ⟨rfl, rfl⟩ := outcome_ok_inj h
        exact .blankAtomic ha
      · next ha => exact .blank (by simpa using ha) (reads_of_run h)
    | seq a b =>
      simp only [run] at h
      split at h
      · next t1 q1 xs h1 =>
        split at h
        · next t2 q2 ys h2 =>
          obtain ⟨rfl, rfl⟩ := outcome_ok_inj h
          exact .seq (reads_of_run h1) (reads_of_run h2)
        · simp at h
      · simp at h
    | alt a b =>
      simp only [run] at h
      split at h
      · exact .altRight (reads_of_run h)
      · exact .altLeft (reads_of_run h)
    | opt a =>
      simp only [run] at h
      split at h
      · obtain ⟨rfl, rfl⟩ := outcome_ok_inj h
        exact .optNone
      · exact .optSome (reads_of_run h)
    | many a =>
      simp only [run] at h
      split at h
      · obtain ⟨rfl, rfl⟩ := outcome_ok_inj h
        exact .manyNil
      · next t1 q1 xs h1 =>
        split at h
        · split at h
          · next t2 q2 ys h2 =>
            obtain ⟨rfl, rfl⟩ := outcome_ok_inj h
            exact .manyCons (reads_of_run h1) (reads_of_run h2)
          · simp at h
        · obtain ⟨rfl, rfl⟩ := outcome_ok_inj h
          exact .manyStop (reads_of_run h1)
    | ahead a =>
      simp only [run, Prod.mk.injEq, Option.map_eq_some_iff] at h
      obtain ⟨-, _, -, rfl, rfl⟩ := h
      exact .ahead
    | notAhead a =>
      simp only [run] at h
      split at h
      · simp at h
      · obtain ⟨rfl, rfl⟩ := outcome_ok_inj h
        exact .notAhead
    | rule r =>
      simp only [run] at h
      split at h
      · next hvis =>
        split at h
        · next t1 q1 xs h1 =>
          obtain ⟨rfl, rfl⟩ := outcome_ok_inj h
          have hr := Reads.rule (reads_of_run h1)
          simp only [hvis, true_and] at hr
          exact hr
        · simp at h
      · next hvis =>
        have hr := Reads.rule (reads_of_run h)
        simp only [hvis, Bool.false_eq_true, false_and, if_false] at hr
        exact hr

/-- Inside an atomic body or a lookahead a reading gives no nodes. -/
theorem Reads.nil_of_quiet {m : Mode} {e : Peg.Expr ρ} {p q : Nat} {ns : List (Node ρ)}
    (h : Reads g src m e p q ns) (hm : m.atomic = true ∨ m.look ≠ .none) : ns = [] := by
  induction h with
  | blank _ _ ih => exact ih hm
  | seq _ _ iha ihb => rw [iha hm, ihb hm]; rfl
  | altLeft _ ih => exact ih hm
  | altRight _ ih => exact ih hm
  | optSome _ ih => exact ih hm
  | manyStop _ ih => exact ih hm
  | manyCons _ _ iha ihb => rw [iha hm, ihb hm]; rfl
  | rule _ ih =>
    rename_i m r p q xs _
    have hquiet : ¬ ((g.kind r).visible = true ∧ m.look = .none ∧ m.atomic = false) := by
      rintro ⟨-, hl, ha⟩
      rcases hm with hm | hm
      · rw [hm] at ha
        contradiction
      · exact hm hl
    rw [if_neg hquiet]
    apply ih
    rcases hm with hm | hm
    · left
      simp [hm]
    · right
      exact hm
  | _ => rfl

/-- A repetition gives the nodes of its readings of the repeated expression, one after the
other. -/
theorem Reads.many_parts {m : Mode} {a : Peg.Expr ρ} {p q : Nat} {ns : List (Node ρ)}
    (h : Reads g src m (.many a) p q ns) :
    ∃ parts : List (List (Node ρ)), ns = parts.flatten ∧
      ∀ xs ∈ parts, ∃ p' q', Reads g src m a p' q' xs := by
  generalize he : Expr.many a = e at h
  induction h with
  | manyNil => exact ⟨[], rfl, by simp⟩
  | manyStop h1 =>
    cases he
    refine ⟨[_], List.flatten_singleton.symm, ?_⟩
    intro xs hxs
    rw [List.mem_singleton.mp hxs]
    exact ⟨_, _, h1⟩
  | manyCons h1 _ _ ih =>
    cases he
    obtain ⟨parts, rfl, hparts⟩ := ih rfl
    refine ⟨_ :: parts, rfl, ?_⟩
    intro xs hxs
    rcases List.mem_cons.mp hxs with rfl | hxs
    · exact ⟨_, _, h1⟩
    · exact hparts xs hxs
  | _ => cases he

theorem matchAt_append (s t : List Char) (p : Nat) :
    matchAt src (s ++ t) p = (matchAt src s p && matchAt src t (p + s.length)) := by
  induction s generalizing p with
  | nil => simp [matchAt]
  | cons c rest ih =>
    simp only [List.cons_append, matchAt, ih, Bool.and_assoc, List.length_cons]
    congr 3
    omega

/-- The characters a match finds are the characters matched. -/
theorem extract_of_matchAt {s : List Char} {p : Nat} (h : matchAt src s p = true) :
    (src.extract p (p + s.length)).toList = s := by
  induction s generalizing p with
  | nil => simp
  | cons c rest ih =>
    simp only [matchAt, Bool.and_eq_true, beq_iff_eq] at h
    obtain ⟨hc, hrest⟩ := h
    have hp : p < src.toList.length := by
      rw [← Array.getElem?_toList] at hc
      exact (List.getElem?_eq_some_iff.mp hc).1
    have hrest' := ih hrest
    simp only [Array.toList_extract, List.extract] at hrest' ⊢
    rw [List.drop_eq_getElem_cons hp]
    rw [List.length_cons, show p + (rest.length + 1) - p = rest.length + 1 by omega,
      List.take_succ_cons]
    rw [show p + 1 + rest.length - (p + 1) = rest.length by omega] at hrest'
    rw [hrest']
    congr
    rw [← Array.getElem?_toList] at hc
    exact (List.getElem?_eq_some_iff.mp hc).2

namespace Expr

/-- The texts an expression made of literal text, choices and lookaheads spells inside an atomic
body; `none` for an expression with repetitions or rules in it. -/
def spellings : Peg.Expr ρ → Option (List (List Char))
  | .str s => some [s]
  | .seq a b => do
    let xs ← a.spellings
    let ys ← b.spellings
    some (xs.flatMap fun x => ys.map (x ++ ·))
  | .alt a b => do some ((← a.spellings) ++ (← b.spellings))
  | .ahead _ | .notAhead _ | .blank => some [[]]
  | _ => none

end Expr

/-- Inside an atomic body, an expression with spellings reads one of them. -/
theorem Reads.spelled {m : Mode} {e : Peg.Expr ρ} {p q : Nat} {ns : List (Node ρ)}
    {texts : List (List Char)} (h : Reads g src m e p q ns) (hm : m.atomic = true)
    (hs : e.spellings = some texts) : ∃ s ∈ texts, matchAt src s p = true ∧ q = p + s.length := by
  induction h generalizing texts with
  | str hmatch =>
    simp only [Expr.spellings, Option.some.injEq] at hs
    exact ⟨_, by simp [← hs], hmatch, rfl⟩
  | blank ha => rw [hm] at ha; contradiction
  | seq _ _ iha ihb =>
    simp only [Expr.spellings, Option.bind_eq_bind, Option.bind_eq_some_iff,
      Option.some.injEq] at hs
    obtain ⟨xs, hxs, ys, hys, rfl⟩ := hs
    obtain ⟨s, hs, hms, rfl⟩ := iha hm hxs
    obtain ⟨t, ht, hmt, rfl⟩ := ihb hm hys
    refine ⟨s ++ t, List.mem_flatMap.mpr ⟨s, hs, List.mem_map.mpr ⟨t, ht, rfl⟩⟩, ?_, ?_⟩
    · rw [matchAt_append, hms, hmt]
      rfl
    · simp only [List.length_append]
      omega
  | altLeft _ ih =>
    simp only [Expr.spellings, Option.bind_eq_bind, Option.bind_eq_some_iff,
      Option.some.injEq] at hs
    obtain ⟨xs, hxs, ys, hys, rfl⟩ := hs
    obtain ⟨s, hs, hms, rfl⟩ := ih hm hxs
    exact ⟨s, List.mem_append_left _ hs, hms, rfl⟩
  | altRight _ ih =>
    simp only [Expr.spellings, Option.bind_eq_bind, Option.bind_eq_some_iff,
      Option.some.injEq] at hs
    obtain ⟨xs, hxs, ys, hys, rfl⟩ := hs
    obtain ⟨s, hs, hms, rfl⟩ := ih hm hys
    exact ⟨s, List.mem_append_right _ hs, hms, rfl⟩
  | blankAtomic | ahead | notAhead =>
    simp only [Expr.spellings, Option.some.injEq] at hs
    exact ⟨[], by simp [← hs], rfl, rfl⟩
  | _ => simp [Expr.spellings] at hs

end EcmaLite.Peg
