import Mathlib.Logic.Relation
import EcmaLite.Proofs.Store

/-!
# Prototype chains

The prototype relation of a world (`World.Link`), what it means for it to have no cycle
(`World.Acyclic`), and what `World.setProto` does to it.

`protoAt w id i` is the object reached from `id` by `i` prototype links. The walk of
`World.chainReaches` looks at the first `remaining + 1` objects of a chain and either meets its
target, runs past them (a fault) or sees the chain end first (`chainReaches_cases`). From that
comes the exact behaviour of relinking (`setProto_some_cases`, `protoAt_relink_self`), and that
a relink which succeeds keeps the relation acyclic (`Acyclic.setProto`). Allocating an object
whose prototype is already in the heap keeps it acyclic too (`Acyclic.alloc`).
-/

namespace EcmaLite

namespace World

open Relation

/-- Object `a` has prototype `b`. -/
def Link (w : World) (a b : ObjId) : Prop := (w.obj a).proto = some b

/-- No object is reached from itself by following prototypes. -/
def Acyclic (w : World) : Prop := ∀ id, ¬TransGen w.Link id id

/-- The object `i` prototype links up from `id`, if the chain goes that far. -/
def protoAt (w : World) : ObjId → Nat → Option ObjId
  | id, 0 => some id
  | id, i + 1 => (w.obj id).proto.bind fun p => w.protoAt p i

variable {w : World} {a b c o p q : ObjId} {i j r : Nat}

/-! ## Chains -/

@[simp] theorem protoAt_zero : w.protoAt a 0 = some a := rfl

theorem protoAt_succ_of_link (h : w.Link a b) : w.protoAt a (i + 1) = w.protoAt b i := by
  simp only [protoAt, show (w.obj a).proto = some b from h, Option.bind_some]

theorem protoAt_succ_of_proto_none (h : (w.obj a).proto = none) :
    w.protoAt a (i + 1) = none := by
  simp only [protoAt, h, Option.bind_none]

/-- A chain that has ended stays ended. -/
theorem protoAt_eq_none_of_le (h : w.protoAt a i = none) (hij : i ≤ j) :
    w.protoAt a j = none := by
  induction i generalizing a j with
  | zero => simp at h
  | succ i ih =>
    obtain ⟨j, rfl⟩ : ∃ k, j = k + 1 := ⟨j - 1, by omega⟩
    cases hp : (w.obj a).proto with
    | none => exact protoAt_succ_of_proto_none hp
    | some b =>
      rw [protoAt_succ_of_link hp] at h ⊢
      exact ih h (by omega)

/-- Following prototypes reaches exactly the objects of the chain. -/
theorem reflTransGen_iff_exists_protoAt :
    ReflTransGen w.Link a b ↔ ∃ i, w.protoAt a i = some b := by
  constructor
  · intro h
    induction h using ReflTransGen.head_induction_on with
    | refl => exact ⟨0, rfl⟩
    | head hac _ ih =>
      obtain ⟨i, hi⟩ := ih
      exact ⟨i + 1, by rw [protoAt_succ_of_link hac, hi]⟩
  · rintro ⟨i, hi⟩
    induction i generalizing a with
    | zero =>
      cases hi
      exact ReflTransGen.refl
    | succ i ih =>
      cases hp : (w.obj a).proto with
      | none => rw [protoAt_succ_of_proto_none hp] at hi; cases hi
      | some c =>
        rw [protoAt_succ_of_link hp] at hi
        exact ReflTransGen.head hp (ih hi)

/-! ## The bounded walk -/

theorem chainReaches_self : w.chainReaches o r o = .ok true := by
  unfold chainReaches
  rw [if_pos rfl]

theorem chainReaches_zero (hq : q ≠ o) :
    w.chainReaches o 0 q = .error (.chainTooLong w.limits.maxChain) := by
  unfold chainReaches
  rw [if_neg hq]

theorem chainReaches_succ_of_proto_none (hq : q ≠ o) (hp : (w.obj q).proto = none) :
    w.chainReaches o (r + 1) q = .ok false := by
  unfold chainReaches
  rw [if_neg hq]
  simp only [hp]

theorem chainReaches_succ_of_link (hq : q ≠ o) (hp : w.Link q p) :
    w.chainReaches o (r + 1) q = w.chainReaches o r p := by
  conv => lhs; unfold chainReaches
  rw [if_neg hq]
  simp only [show (w.obj q).proto = some p from hp]

/-- Below an object other than `o`, looking for `o` among the first `r + 2` objects is looking
among the first `r + 1` of its prototype's chain. -/
theorem exists_protoAt_succ_iff (hq : q ≠ o) (hp : w.Link q p) :
    (∃ i ≤ r + 1, w.protoAt q i = some o) ↔ ∃ i ≤ r, w.protoAt p i = some o := by
  constructor
  · rintro ⟨i, hi, hqi⟩
    cases i with
    | zero => exact absurd (Option.some.inj hqi) hq
    | succ i => exact ⟨i, by omega, by rwa [protoAt_succ_of_link hp] at hqi⟩
  · rintro ⟨i, hi, hpi⟩
    exact ⟨i + 1, by omega, by rwa [protoAt_succ_of_link hp]⟩

/-- The walk from `q` looking for `o` with `r` links to spare: it answers `true` when `o` is
among the first `r + 1` objects of the chain, faults when the chain has more objects than that,
and answers `false` when the chain ends first. -/
theorem chainReaches_cases (o : ObjId) (r : Nat) (q : ObjId) :
    ((∃ i ≤ r, w.protoAt q i = some o) ∧ w.chainReaches o r q = .ok true) ∨
    ((¬∃ i ≤ r, w.protoAt q i = some o) ∧ (w.protoAt q r).isSome ∧
      w.chainReaches o r q = .error (.chainTooLong w.limits.maxChain)) ∨
    ((¬∃ i ≤ r, w.protoAt q i = some o) ∧ w.protoAt q r = none ∧
      w.chainReaches o r q = .ok false) := by
  by_cases hq : q = o
  · subst hq
    exact .inl ⟨⟨0, Nat.zero_le r, rfl⟩, chainReaches_self⟩
  -- the object itself is not `o`, so the walk goes on exactly as the chain does
  have hnot0 : ∀ i ≤ 0, w.protoAt q i ≠ some o := by
    intro i hi h
    obtain rfl : i = 0 := by omega
    exact hq (Option.some.inj h)
  induction r generalizing q with
  | zero =>
    refine .inr (.inl ⟨fun ⟨i, hi, h⟩ => hnot0 i hi h, rfl, chainReaches_zero hq⟩)
  | succ r ih =>
    cases hp : (w.obj q).proto with
    | none =>
      refine .inr (.inr ⟨?_, protoAt_succ_of_proto_none hp, chainReaches_succ_of_proto_none hq hp⟩)
      rintro ⟨i, _, h⟩
      cases i with
      | zero => exact hq (Option.some.inj h)
      | succ i => rw [protoAt_succ_of_proto_none hp] at h; cases h
    | some p =>
      rw [exists_protoAt_succ_iff hq hp, protoAt_succ_of_link hp,
        chainReaches_succ_of_link hq hp]
      by_cases hpo : p = o
      · subst hpo
        exact .inl ⟨⟨0, Nat.zero_le r, rfl⟩, chainReaches_self⟩
      · exact ih p hpo fun i hi h => hpo (Option.some.inj (by rwa [show i = 0 by omega] at h))

/-- A `false` answer means `o` is nowhere on the chain. -/
theorem not_reflTransGen_of_chainReaches (h : w.chainReaches o r q = .ok false) :
    ∀ x, ReflTransGen w.Link q x → x ≠ o := by
  rcases chainReaches_cases (w := w) o r q with ⟨_, h'⟩ | ⟨_, _, h'⟩ | ⟨hno, hend, _⟩
  · rw [h] at h'; cases h'
  · rw [h] at h'; cases h'
  rintro x hx rfl
  obtain ⟨i, hi⟩ := reflTransGen_iff_exists_protoAt.mp hx
  by_cases hir : i ≤ r
  · exact hno ⟨i, hir, hi⟩
  · rw [protoAt_eq_none_of_le hend (by omega)] at hi
    cases hi

/-! ## Relinking -/

/-- `w` with the prototype of `o` set to `proto`. -/
abbrev relink (w : World) (o : ObjId) (proto : Option ObjId) : World :=
  w.update o fun ob => { ob with proto := proto }

theorem setProto_none_apply : setProto o none w = .ok true (w.relink o none) := rfl

theorem setProto_of_chain_true (h : w.chainReaches o w.limits.maxChain p = .ok true) :
    setProto o (some p) w = .ok false w := by
  unfold setProto
  rw [Run.get_bind_apply]
  simp only [h]
  rfl

theorem setProto_of_chain_false (h : w.chainReaches o w.limits.maxChain p = .ok false) :
    setProto o (some p) w = .ok true (w.relink o (some p)) := by
  unfold setProto
  rw [Run.get_bind_apply]
  simp only [h]
  rfl

theorem setProto_of_chain_error {f : Fault}
    (h : w.chainReaches o w.limits.maxChain p = .error f) :
    setProto o (some p) w = .error f w := by
  unfold setProto
  rw [Run.get_bind_apply]
  simp only [h]
  rfl

/-- What relinking `o` to `p` does, in three exclusive cases over the chain from `p`, with
`N` links to spare. -/
theorem setProto_some_cases (w : World) (o p : ObjId) :
    ((∃ i ≤ w.limits.maxChain, w.protoAt p i = some o) ∧ setProto o (some p) w = .ok false w) ∨
    ((¬∃ i ≤ w.limits.maxChain, w.protoAt p i = some o) ∧
      (w.protoAt p w.limits.maxChain).isSome ∧
      setProto o (some p) w = .error (.chainTooLong w.limits.maxChain) w) ∨
    ((¬∃ i ≤ w.limits.maxChain, w.protoAt p i = some o) ∧
      w.protoAt p w.limits.maxChain = none ∧
      setProto o (some p) w = .ok true (w.relink o (some p))) := by
  rcases chainReaches_cases (w := w) o w.limits.maxChain p with
    ⟨hin, h⟩ | ⟨hin, hlong, h⟩ | ⟨hin, hend, h⟩
  · exact .inl ⟨hin, setProto_of_chain_true h⟩
  · exact .inr (.inl ⟨hin, hlong, setProto_of_chain_error h⟩)
  · exact .inr (.inr ⟨hin, hend, setProto_of_chain_false h⟩)

theorem obj_relink_self (h : o < w.objs.size) (proto : Option ObjId) :
    (w.relink o proto).obj o = { w.obj o with proto := proto } :=
  obj_update_self h

/-- Changing an object off a chain leaves the chain as it was. -/
theorem protoAt_update_of_avoid {f : Obj → Obj} (h : ∀ i, w.protoAt q i ≠ some o) (i : Nat) :
    (w.update o f).protoAt q i = w.protoAt q i := by
  induction i generalizing q with
  | zero => rfl
  | succ i ih =>
    have hq : q ≠ o := fun hq => h 0 (by rw [hq]; rfl)
    simp only [protoAt, obj_update_ne hq]
    cases hp : (w.obj q).proto with
    | none => rfl
    | some p =>
      simp only [Option.bind_some]
      exact ih fun j hj => h (j + 1) (by rwa [protoAt_succ_of_link hp])

/-- After a relink of `o` to a chain of at most `n` objects that avoids `o`, the chain of `o`
has at most `n` links. -/
theorem protoAt_relink_self (ho : o < w.objs.size) (hend : w.protoAt p n = none)
    (havoid : ∀ i, w.protoAt p i ≠ some o) : (w.relink o (some p)).protoAt o (n + 1) = none := by
  have hlink : (w.relink o (some p)).Link o p := by
    simp only [Link, obj_relink_self ho]
  rw [protoAt_succ_of_link hlink, protoAt_update_of_avoid havoid, hend]

/-! ## Acyclicity -/

/-- Fewer links keep the relation acyclic. -/
theorem Acyclic.of_link_imp {w' : World} (hw : w.Acyclic) (h : ∀ a b, w'.Link a b → w.Link a b) :
    w'.Acyclic :=
  fun id hc => hw id (TransGen.mono h _ _ hc)

theorem link_update_of_proto {f : Obj → Obj} (hf : ∀ ob, (f ob).proto = ob.proto) :
    (w.update o f).Link a b ↔ w.Link a b := by
  by_cases ho : o < w.objs.size
  · by_cases ha : a = o
    · subst ha
      simp only [Link, obj_update_self ho, hf]
    · simp only [Link, obj_update_ne ha]
  · simp only [Link, obj_update_of_size_le (Nat.le_of_not_lt ho)]

/-- An update that keeps every prototype keeps the relation acyclic. -/
theorem Acyclic.update {f : Obj → Obj} (hw : w.Acyclic) (hf : ∀ ob, (f ob).proto = ob.proto) :
    (w.update o f).Acyclic :=
  hw.of_link_imp fun _ _ => (link_update_of_proto hf).mp

theorem Acyclic.relink_none (hw : w.Acyclic) : (w.relink o none).Acyclic := by
  refine hw.of_link_imp fun a b h => ?_
  by_cases ho : o < w.objs.size
  · by_cases ha : a = o
    · subst ha
      simp [Link, obj_relink_self ho] at h
    · simpa only [Link, obj_update_ne ha] using h
  · simpa only [Link, obj_update_of_size_le (Nat.le_of_not_lt ho)] using h

/-- The links after a relink of `o` to `p`: those of other objects, and `o` to `p`. -/
theorem link_relink (ho : o < w.objs.size) :
    (w.relink o (some p)).Link a b ↔ (a ≠ o ∧ w.Link a b) ∨ (a = o ∧ b = p) := by
  by_cases ha : a = o
  · subst ha
    simp only [Link, obj_relink_self ho, Option.some.injEq, ne_eq, not_true_eq_false,
      false_and, true_and, false_or]
    exact eq_comm
  · simp only [Link, obj_update_ne ha, ne_eq, ha, not_false_eq_true, true_and, false_and,
      or_false]

/-- A path of the relinked relation that starts where `o` is out of reach is a path of the old
one. -/
theorem reflTransGen_of_relink (ho : o < w.objs.size) (h : ReflTransGen (w.relink o (some p)).Link a b)
    (hout : ∀ x, ReflTransGen w.Link a x → x ≠ o) : ReflTransGen w.Link a b := by
  induction h using ReflTransGen.head_induction_on with
  | refl => exact ReflTransGen.refl
  | @head a c hac _ ih =>
    have hao : a ≠ o := hout a ReflTransGen.refl
    have hlink : w.Link a c := by
      rcases (link_relink ho).mp hac with ⟨_, hl⟩ | ⟨rfl, _⟩
      · exact hl
      · exact absurd rfl hao
    exact ReflTransGen.head hlink (ih fun x hx => hout x (ReflTransGen.head hlink hx))

/-- A path of the relinked relation either is a path of the old one or passes through `o`. -/
theorem transGen_relink_cases (ho : o < w.objs.size)
    (h : TransGen (w.relink o (some p)).Link a b) :
    TransGen w.Link a b ∨
      (ReflTransGen (w.relink o (some p)).Link a o ∧ ReflTransGen (w.relink o (some p)).Link o b) := by
  induction h using TransGen.head_induction_on with
  | @single a hab =>
    rcases (link_relink ho).mp hab with ⟨_, hl⟩ | ⟨rfl, _⟩
    · exact .inl (TransGen.single hl)
    · exact .inr ⟨ReflTransGen.refl, ReflTransGen.single hab⟩
  | @head a c hac hcb ih =>
    rcases ih with hold | ⟨hco, hob⟩
    · rcases (link_relink ho).mp hac with ⟨_, hl⟩ | ⟨rfl, _⟩
      · exact .inl (TransGen.head hl hold)
      · exact .inr ⟨ReflTransGen.refl, (TransGen.head hac hcb).to_reflTransGen⟩
    · exact .inr ⟨ReflTransGen.head hac hco, hob⟩

/-- Relinking `o` to an object whose chain does not reach `o` keeps the relation acyclic. -/
theorem Acyclic.relink (hw : w.Acyclic) (hout : ∀ x, ReflTransGen w.Link p x → x ≠ o) :
    (w.relink o (some p)).Acyclic := by
  by_cases hout' : w.objs.size ≤ o
  · refine hw.of_link_imp fun a b h => ?_
    simpa only [Link, obj_update_of_size_le hout'] using h
  have ho : o < w.objs.size := Nat.lt_of_not_le hout'
  intro x hx
  rcases transGen_relink_cases ho hx with hold | ⟨hxo, hox⟩
  · exact hw x hold
  -- a cycle through `o` leaves it for `p` and comes back: then `o` was on `p`'s chain
  have hoo : TransGen (w.relink o (some p)).Link o o := TransGen.trans_right hox (hx.trans_left hxo)
  obtain ⟨c, hoc, hco⟩ := TransGen.head'_iff.mp hoo
  obtain rfl : c = p := by
    rcases (link_relink ho).mp hoc with ⟨hne, _⟩ | ⟨_, rfl⟩
    · exact absurd rfl hne
    · rfl
  exact hout o (reflTransGen_of_relink ho hco hout) rfl

/-- A relink that `setProto` makes keeps the relation acyclic; the others change nothing. -/
theorem Acyclic.setProto {proto : Option ObjId} {b : Bool} {w' : World} (hw : w.Acyclic)
    (h : World.setProto o proto w = .ok b w') : w'.Acyclic := by
  cases proto with
  | none =>
    rw [setProto_none_apply] at h
    cases h
    exact hw.relink_none
  | some p =>
    rcases chainReaches_cases (w := w) o w.limits.maxChain p with ⟨_, hc⟩ | ⟨_, _, hc⟩ | ⟨_, _, hc⟩
    · rw [setProto_of_chain_true hc] at h
      cases h
      exact hw
    · rw [setProto_of_chain_error hc] at h
      cases h
    · rw [setProto_of_chain_false hc] at h
      cases h
      exact hw.relink (not_reflTransGen_of_chainReaches hc)

/-- The links after allocating `ob`: the old ones, and the new object's prototype. -/
theorem link_alloc {ob : Obj} :
    (w.alloc ob).2.Link a b ↔ (a < w.objs.size ∧ w.Link a b) ∨ (a = w.objs.size ∧ ob.proto = some b) := by
  simp only [Link, obj_alloc]
  split
  · rename_i ha
    simp [ha]
  · rename_i ha
    rcases Nat.lt_or_gt_of_ne ha with hlt | hgt
    · simp [hlt, ha]
    · simp [obj_of_size_le (Nat.le_of_lt hgt), Nat.not_lt_of_gt hgt, ha]

/-- Allocating an object whose prototype is in the heap keeps the relation acyclic, when every
prototype is in the heap. -/
theorem Acyclic.alloc {ob : Obj} (hw : w.Acyclic) (hin : ∀ a b, w.Link a b → b < w.objs.size)
    (hob : ∀ b, ob.proto = some b → b < w.objs.size) : (w.alloc ob).2.Acyclic := by
  -- from an old object, paths stay among old objects and use old links only
  have hold : ∀ a b, TransGen (w.alloc ob).2.Link a b → a < w.objs.size →
      TransGen w.Link a b ∧ b < w.objs.size := by
    intro a b h
    induction h using TransGen.head_induction_on with
    | @single a hab =>
      intro ha
      rcases link_alloc.mp hab with ⟨_, hl⟩ | ⟨rfl, _⟩
      · exact ⟨TransGen.single hl, hin a b hl⟩
      · exact absurd ha (Nat.lt_irrefl _)
    | @head a c hac _ ih =>
      intro ha
      rcases link_alloc.mp hac with ⟨_, hl⟩ | ⟨rfl, _⟩
      · obtain ⟨hcb, hb⟩ := ih (hin a c hl)
        exact ⟨TransGen.head hl hcb, hb⟩
      · exact absurd ha (Nat.lt_irrefl _)
  intro x hx
  obtain ⟨c, hxc, hcx⟩ := TransGen.head'_iff.mp hx
  rcases link_alloc.mp hxc with ⟨hxs, _⟩ | ⟨rfl, hc⟩
  · exact hw x (hold x x hx hxs).1
  -- the new object's prototype is old, and no old object leads back to the new one
  have hcs : c < w.objs.size := hob c hc
  rcases hcx.cases_head with rfl | ⟨d, hcd, hdx⟩
  · exact Nat.lt_irrefl _ hcs
  · exact Nat.lt_irrefl _ (hold c _ (TransGen.head' hcd hdx) hcs).2

end World

end EcmaLite
