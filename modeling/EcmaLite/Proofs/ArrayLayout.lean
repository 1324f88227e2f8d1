import EcmaLite.Proofs.Keys
import EcmaLite.Realm

/-!
# Where an array keeps its keys

An array keeps a key in one of two places: a canonical index below the length of its element
vector names a slot of the vector, and every other key is looked up in its property table. The
own-key listing reads both places: present slots first, then the table.

The two places agree when the table holds no canonical index below the length
(`Obj.TableAboveElems`). Then each own key is listed once, and exactly the keys the object has
are listed (`keysAgree_of_tableAboveElems`). A write more than `maxPadding` past the end stores
its index in the table, and a later write can grow the vector over such an index, with padding
or through `length`: the table entry is then shadowed by a hole or listed a second time.

The main statement, `array_keys_agree_iff_layout`, says for every array built by `new`, writes
and deletes:

* its keys agree exactly when the table holds no index below the length;
* a write is seen under its own key and changes no other key, except exactly when it grows the
  vector over an index that the table holds under another key;
* deletes keep the layout, and a write keeps it exactly when it grows the vector over no index
  that the table holds.
-/

namespace EcmaLite

namespace Elements

/-- The value in slot `j`: `none` for a hole and past the end. -/
def slot (es : Array (Option Value)) (j : Nat) : Option Value := es[j]?.join

variable {es : Array (Option Value)} {i j n : Nat} {x : Option Value}

theorem slot_of_size_le (h : es.size ≤ j) : slot es j = none := by
  simp [slot, h]

theorem size_set! : (es.set! i x).size = es.size := by
  simp

theorem slot_set_self (h : i < es.size) : slot (es.set! i x) i = x := by
  simp [slot, h]

theorem slot_set_ne (h : j ≠ i) : slot (es.set! i x) j = slot es j := by
  simp [slot, Array.getElem?_setIfInBounds_ne (Ne.symm h)]

@[simp] theorem size_resize : (resize es n).size = n := by
  unfold resize
  split
  · simp; omega
  · simp; omega

/-- Resizing keeps the slots below the new length and drops the others. -/
theorem slot_resize : slot (resize es n) j = if j < n then slot es j else none := by
  unfold resize slot
  split
  · by_cases hj : j < n
    · simp [hj, show j < min n es.size by omega, show j < es.size by omega]
    · simp [hj, show ¬j < min n es.size by omega]
  · rename_i h
    by_cases hj : j < es.size
    · simp [Array.getElem?_append, hj, show j < n by omega]
    · simp [Array.getElem?_append, hj, Array.getElem?_replicate]
      split <;> simp

theorem slot_push : slot (es.push x) j = if j = es.size then x else slot es j := by
  simp [slot, Array.getElem?_push]
  split <;> simp

theorem mem_presentIndices : j ∈ Obj.presentIndices es ↔ j < es.size ∧ (slot es j).isSome := by
  simp [Obj.presentIndices, slot]

theorem nodup_presentIndices : (Obj.presentIndices es).Nodup :=
  (List.nodup_range).filter _

end Elements

open Elements

namespace Obj

/-! ## Reading an array -/

/-- The value an array with vector `es` and table `props` has under a key other than
`length`: its slot for an index below the length, else its table entry. -/
def arrayLookup (es : Array (Option Value)) (props : List (String × Value)) (key : String) :
    Option Value :=
  match arrayIndex? key with
  | some i => if i < es.size then slot es i else Props.get? props key
  | none => Props.get? props key

variable {es : Array (Option Value)} {cls : ClassTag} {props : List (String × Value)}
  {proto : Option ObjId} {key : String} {v : Value}

theorem getOwn_array (hl : key ≠ lengthKey) :
    (⟨.array es, cls, props, proto⟩ : Obj).getOwn key = arrayLookup es props key := by
  cases h : arrayIndex? key with
  | none => simp [getOwn, arrayLookup, hl, h]
  | some i => simp [getOwn, arrayLookup, slot, hl, h]

theorem hasOwn_array (hl : key ≠ lengthKey) :
    (⟨.array es, cls, props, proto⟩ : Obj).hasOwn key = (arrayLookup es props key).isSome := by
  simp only [hasOwn, if_neg hl, arrayLookup, slot]
  cases arrayIndex? key with
  | none => exact Props.get?_isSome.symm
  | some i =>
    by_cases hi : i < es.size
    · simp only [if_pos hi]
    · simp only [if_neg hi]
      exact Props.get?_isSome.symm

theorem ownKeys_array :
    (⟨.array es, cls, props, proto⟩ : Obj).ownKeys =
      (presentIndices es).map toString ++ props.map Prod.fst := rfl

/-! ## One lemma per way an array takes a write -/

theorem putOwn_array_of_lt {i : Nat} (hk : arrayIndex? key = some i) (hi : i < es.size) :
    (⟨.array es, cls, props, proto⟩ : Obj).putOwn key v =
      ⟨.array (es.set! i (some v)), cls, props, proto⟩ := by
  simp [putOwn, ne_lengthKey_of_arrayIndex? hk, hk, hi]

theorem putOwn_array_pad {i : Nat} (hk : arrayIndex? key = some i) (hi : es.size ≤ i)
    (hp : i - es.size ≤ maxPadding) :
    (⟨.array es, cls, props, proto⟩ : Obj).putOwn key v =
      ⟨.array ((resize es i).push (some v)), cls, props, proto⟩ := by
  simp [putOwn, ne_lengthKey_of_arrayIndex? hk, hk, Nat.not_lt.mpr hi, hp]

theorem putOwn_array_far {i : Nat} (hk : arrayIndex? key = some i)
    (hp : ¬i - es.size ≤ maxPadding) :
    (⟨.array es, cls, props, proto⟩ : Obj).putOwn key v =
      ⟨.array es, cls, Props.set props key v, proto⟩ := by
  have hi : ¬i < es.size := by
    intro h
    exact hp (by omega)
  simp [putOwn, ne_lengthKey_of_arrayIndex? hk, hk, hi, hp]

theorem putOwn_array_named (hk : arrayIndex? key = none) (hl : key ≠ lengthKey) :
    (⟨.array es, cls, props, proto⟩ : Obj).putOwn key v =
      ⟨.array es, cls, Props.set props key v, proto⟩ := by
  simp [putOwn, hl, hk]

/-- Writing `length` resizes the vector or does nothing; the table stays. -/
theorem putOwn_array_length :
    ∃ es', (⟨.array es, cls, props, proto⟩ : Obj).putOwn lengthKey v =
      ⟨.array es', cls, props, proto⟩ := by
  simp only [putOwn, if_true]
  split
  · split
    · exact ⟨_, rfl⟩
    · exact ⟨_, rfl⟩
  · exact ⟨_, rfl⟩

/-- The four ways an array takes a write: `length` resizes or does nothing, an index below the
length fills its slot, an index at most `maxPadding` past the end pads the vector up to it, and
any other key goes to the table. -/
theorem putOwn_array_cases (key : String) (v : Value) :
    (key = lengthKey ∧ ∃ es', (⟨.array es, cls, props, proto⟩ : Obj).putOwn key v =
      ⟨.array es', cls, props, proto⟩) ∨
    (∃ i, arrayIndex? key = some i ∧ i < es.size ∧
      (⟨.array es, cls, props, proto⟩ : Obj).putOwn key v =
        ⟨.array (es.set! i (some v)), cls, props, proto⟩) ∨
    (∃ i, arrayIndex? key = some i ∧ es.size ≤ i ∧
      (⟨.array es, cls, props, proto⟩ : Obj).putOwn key v =
        ⟨.array ((resize es i).push (some v)), cls, props, proto⟩) ∨
    (key ≠ lengthKey ∧ (∀ i, arrayIndex? key = some i → es.size + maxPadding < i) ∧
      (⟨.array es, cls, props, proto⟩ : Obj).putOwn key v =
        ⟨.array es, cls, Props.set props key v, proto⟩) := by
  by_cases hl : key = lengthKey
  · subst hl
    exact .inl ⟨rfl, putOwn_array_length⟩
  cases hk : arrayIndex? key with
  | none =>
    refine .inr (.inr (.inr ⟨hl, (fun i h => by cases h), putOwn_array_named hk hl⟩))
  | some i =>
    by_cases hi : i < es.size
    · exact .inr (.inl ⟨i, rfl, hi, putOwn_array_of_lt hk hi⟩)
    by_cases hp : i - es.size ≤ maxPadding
    · exact .inr (.inr (.inl ⟨i, rfl, by omega, putOwn_array_pad hk (by omega) hp⟩))
    · refine .inr (.inr (.inr ⟨hl, ?_, putOwn_array_far hk hp⟩))
      intro j hj
      cases hj
      omega

/-- A delete empties a slot or removes a table entry; the vector keeps its length. -/
theorem deleteOwn_array (key : String) :
    ∃ es', es'.size = es.size ∧
      ((⟨.array es, cls, props, proto⟩ : Obj).deleteOwn key = ⟨.array es', cls, props, proto⟩ ∨
        (⟨.array es, cls, props, proto⟩ : Obj).deleteOwn key =
          ⟨.array es', cls, Props.erase props key, proto⟩) := by
  simp only [deleteOwn]
  split
  · exact ⟨es, rfl, .inl rfl⟩
  · split
    · split
      · exact ⟨_, by simp, .inl rfl⟩
      · exact ⟨es, rfl, .inr rfl⟩
    · exact ⟨es, rfl, .inr rfl⟩

/-! ## The layout and what it buys -/

/-- The length of an array's element vector; zero for other objects. -/
def elemCount (o : Obj) : Nat :=
  match o.kind with
  | .array es => es.size
  | _ => 0

/-- No key of the table is a canonical index below the length of the element vector. -/
def TableAboveElems (o : Obj) : Prop :=
  ∀ k ∈ o.props.map Prod.fst, ∀ i, arrayIndex? k = some i → o.elemCount ≤ i

/-- Each own key is listed once, the listed keys are exactly the own properties other than
`length`, and a key has a value exactly when it is an own property. -/
def KeysAgree (o : Obj) : Prop :=
  o.ownKeys.Nodup ∧ (∀ k, k ≠ lengthKey → (k ∈ o.ownKeys ↔ o.hasOwn k = true)) ∧
    ∀ k, (o.getOwn k).isSome ↔ o.hasOwn k = true

/-- Writing `v` under `key` is seen under `key`, and under no other key but `length`. -/
def WriteIsLocal (o : Obj) (key : String) (v : Value) : Prop :=
  (o.putOwn key v).getOwn key = some v ∧
    ∀ k, k ≠ key → k ≠ lengthKey → (o.putOwn key v).getOwn k = o.getOwn k

@[simp] theorem elemCount_array :
    (⟨.array es, cls, props, proto⟩ : Obj).elemCount = es.size := rfl

theorem mem_ownKeys_array {k : String} :
    k ∈ (⟨.array es, cls, props, proto⟩ : Obj).ownKeys ↔
      (∃ j, j < es.size ∧ (slot es j).isSome ∧ toString j = k) ∨ k ∈ props.map Prod.fst := by
  rw [ownKeys_array, List.mem_append, List.mem_map]
  simp only [mem_presentIndices, and_assoc]

/-- Under the layout each own key is listed once and exactly the own keys are listed. An index
below the length names no table key; the bound `2^64` on the length keeps every slot's index
canonical. -/
theorem keysAgree_of_tableAboveElems (hnd : (props.map Prod.fst).Nodup)
    (hsize : es.size ≤ Nat.pow 2 64)
    (h : (⟨.array es, cls, props, proto⟩ : Obj).TableAboveElems) :
    (⟨.array es, cls, props, proto⟩ : Obj).KeysAgree := by
  have hsep : ∀ j, j < es.size → toString j ∉ props.map Prod.fst := by
    intro j hj hmem
    have := h _ hmem j (arrayIndex?_toString (by omega))
    simp only [elemCount_array] at this
    omega
  refine ⟨?_, fun k hk => ?_, fun k => ?_⟩
  · rw [ownKeys_array, List.nodup_append]
    refine ⟨List.Pairwise.map toString (fun a b hab h => hab (toString_injective h))
      nodup_presentIndices, hnd, ?_⟩
    rintro a ha b hb rfl
    obtain ⟨j, hj, rfl⟩ := List.mem_map.mp ha
    exact hsep j (mem_presentIndices.mp hj).1 hb
  · rw [mem_ownKeys_array, hasOwn_array hk]
    cases hki : arrayIndex? k with
    | none =>
      -- a name that is no canonical index lives in the table only
      have hslot : ¬∃ j, j < es.size ∧ (slot es j).isSome ∧ toString j = k := by
        rintro ⟨j, hj, -, rfl⟩
        rw [arrayIndex?_toString (by omega)] at hki
        cases hki
      simp only [arrayLookup, hki, hslot, false_or, Props.get?_isSome, Props.contains_iff]
    | some i =>
      obtain ⟨rfl, -⟩ := arrayIndex?_eq_some_iff.mp hki
      by_cases hi : i < es.size
      · -- the slot decides, and the table cannot hold the key
        simp only [arrayLookup, hki, if_pos hi, eq_false (hsep i hi), or_false,
          toString_injective.eq_iff]
        constructor
        · rintro ⟨j, -, hj, rfl⟩
          exact hj
        · intro hs
          exact ⟨i, hi, hs, rfl⟩
      · -- no slot carries this index, so the table decides
        have hslot : ¬∃ j, j < es.size ∧ (slot es j).isSome ∧ toString j = toString i := by
          rintro ⟨j, hj, -, hji⟩
          exact hi (toString_injective hji ▸ hj)
        simp only [arrayLookup, hki, if_neg hi, hslot, false_or, Props.get?_isSome,
          Props.contains_iff]
  · by_cases hk : k = lengthKey
    · subst hk
      simp [getOwn, hasOwn]
    · rw [getOwn_array hk, hasOwn_array hk]

/-- Where the layout fails, the keys disagree: a table key naming a slot is listed twice when
the slot holds a value, and listed without being an own property when it is a hole. -/
theorem tableAboveElems_of_keysAgree
    (h : (⟨.array es, cls, props, proto⟩ : Obj).KeysAgree) :
    (⟨.array es, cls, props, proto⟩ : Obj).TableAboveElems := by
  intro k hk i hki
  by_contra hlt
  simp only [elemCount_array, Nat.not_le] at hlt
  obtain ⟨rfl, -⟩ := arrayIndex?_eq_some_iff.mp hki
  have hl := ne_lengthKey_of_arrayIndex? hki
  have hlisted : toString i ∈ (⟨.array es, cls, props, proto⟩ : Obj).ownKeys := by
    rw [ownKeys_array]
    exact List.mem_append_right _ hk
  have hown := (h.2.1 _ hl).mp hlisted
  rw [hasOwn_array hl] at hown
  simp only [arrayLookup, hki, if_pos hlt] at hown
  have hpresent : toString i ∈ (presentIndices es).map toString :=
    List.mem_map.mpr ⟨i, mem_presentIndices.mpr ⟨hlt, hown⟩, rfl⟩
  have hnd := h.1
  rw [ownKeys_array, List.nodup_append] at hnd
  exact hnd.2.2 _ hpresent _ hk rfl

/-! ## What a write changes -/

theorem arrayLookup_set_ne {k : String} (h : k ≠ key) :
    arrayLookup es (Props.set props key v) k = arrayLookup es props k := by
  unfold arrayLookup
  cases arrayIndex? k with
  | none => exact Props.get?_set_ne h
  | some j =>
    by_cases hj : j < es.size
    · simp only [if_pos hj]
    · simp only [if_neg hj]
      exact Props.get?_set_ne h

theorem arrayLookup_set_self (hfar : ∀ i, arrayIndex? key = some i → es.size ≤ i) :
    arrayLookup es (Props.set props key v) key = some v := by
  unfold arrayLookup
  cases hk : arrayIndex? key with
  | none => exact Props.get?_set_self
  | some i =>
    dsimp only
    rw [if_neg (Nat.not_lt.mpr (hfar i hk))]
    exact Props.get?_set_self

theorem arrayLookup_fill_self {i : Nat} (hk : arrayIndex? key = some i) (hi : i < es.size) :
    arrayLookup (es.set! i (some v)) props key = some v := by
  unfold arrayLookup
  rw [hk]
  dsimp only
  rw [if_pos (by rw [size_set!]; exact hi), slot_set_self hi]

theorem arrayLookup_fill_ne {i : Nat} {x : Option Value} (hk : arrayIndex? key = some i)
    {k : String} (h : k ≠ key) :
    arrayLookup (es.set! i x) props k = arrayLookup es props k := by
  unfold arrayLookup
  cases hkj : arrayIndex? k with
  | none => rfl
  | some j =>
    have hji : j ≠ i := fun hji => h (arrayIndex?_inj hkj (hji ▸ hk))
    dsimp only
    rw [size_set!, slot_set_ne hji]

theorem arrayLookup_pad_self {i : Nat} (hk : arrayIndex? key = some i) :
    arrayLookup ((resize es i).push (some v)) props key = some v := by
  unfold arrayLookup
  rw [hk]
  simp [slot_push]

/-- Padding up to index `i` keeps what every key outside `[es.size, i)` reads. -/
theorem arrayLookup_pad_ne {i : Nat} (hk : arrayIndex? key = some i) (hi : es.size ≤ i)
    {k : String} (h : k ≠ key) (hout : ∀ j, arrayIndex? k = some j → es.size ≤ j → i ≤ j) :
    arrayLookup ((resize es i).push (some v)) props k = arrayLookup es props k := by
  unfold arrayLookup
  cases hkj : arrayIndex? k with
  | none => rfl
  | some j =>
    have hji : j ≠ i := fun hji => h (arrayIndex?_inj hkj (hji ▸ hk))
    simp only [Array.size_push, size_resize, slot_push, size_resize, if_neg hji, slot_resize]
    by_cases hj : j < es.size
    · simp [hj, show j < i by omega, show j < i + 1 by omega]
    · have := hout j hkj (by omega)
      simp [hj, show ¬j < i + 1 by omega]

/-- Padding up to index `i` turns the keys in `[es.size, i)` into holes. -/
theorem arrayLookup_pad_hole {i j : Nat} {k : String} (hkj : arrayIndex? k = some j)
    (hlo : es.size ≤ j) (hhi : j < i) :
    arrayLookup ((resize es i).push (some v)) props k = none ∧
      arrayLookup es props k = Props.get? props k := by
  unfold arrayLookup
  rw [hkj]
  simp only [Array.size_push, size_resize, slot_push, slot_resize]
  simp [show j < i + 1 by omega, show j ≠ i by omega, hhi, show ¬j < es.size by omega,
    slot_of_size_le hlo]

/-- A write is local exactly when it does not grow the vector over an index that the table
holds under another key. -/
theorem writeIsLocal_iff (hl : key ≠ lengthKey) :
    (⟨.array es, cls, props, proto⟩ : Obj).WriteIsLocal key v ↔
      ¬∃ k ∈ props.map Prod.fst, k ≠ key ∧ ∃ j, arrayIndex? k = some j ∧
        (⟨.array es, cls, props, proto⟩ : Obj).elemCount ≤ j ∧
        j < ((⟨.array es, cls, props, proto⟩ : Obj).putOwn key v).elemCount := by
  unfold WriteIsLocal
  rcases @putOwn_array_cases es cls props proto key v with
    ⟨hl', -⟩ | ⟨i, hk, hi, hput⟩ | ⟨i, hk, hi, hput⟩ | ⟨-, hfar, hput⟩
  · exact absurd hl' hl
  · -- filling a slot below the length moves nothing
    rw [hput]
    rw [getOwn_array hl, arrayLookup_fill_self hk hi, elemCount_array, elemCount_array,
      size_set!]
    constructor
    · rintro - ⟨k, -, -, j, -, h1, h2⟩
      omega
    · intro _
      refine ⟨rfl, fun k hk' hkl => ?_⟩
      rw [getOwn_array hkl, getOwn_array hkl, arrayLookup_fill_ne hk hk']
  · -- padding: the keys in `[es.size, i)` become holes
    rw [hput]
    simp only [getOwn_array hl, arrayLookup_pad_self hk, elemCount_array, Array.size_push,
      size_resize, true_and]
    constructor
    · rintro hloc ⟨k, hk', hne, j, hkj, h1, h2⟩
      have hji : j ≠ i := fun hji => hne (arrayIndex?_inj hkj (hji ▸ hk))
      have hkl := ne_lengthKey_of_arrayIndex? hkj
      have hsame := hloc k hne hkl
      rw [getOwn_array hkl, getOwn_array hkl, (arrayLookup_pad_hole hkj h1 (by omega)).1,
        (arrayLookup_pad_hole (v := v) hkj h1 (by omega)).2] at hsame
      exact Props.get?_eq_none_iff.mp hsame.symm hk'
    · intro hno k hne hkl
      rw [getOwn_array hkl, getOwn_array hkl]
      by_cases hin : ∃ j, arrayIndex? k = some j ∧ es.size ≤ j ∧ j < i
      · obtain ⟨j, hkj, h1, h2⟩ := hin
        have hnot : k ∉ props.map Prod.fst := fun hk' => hno ⟨k, hk', hne, j, hkj, h1, by omega⟩
        rw [(arrayLookup_pad_hole hkj h1 h2).1, (arrayLookup_pad_hole (v := v) hkj h1 h2).2,
          Props.get?_eq_none_iff.mpr hnot]
      · apply arrayLookup_pad_ne hk hi hne
        intro j hkj h1
        by_contra h2
        exact hin ⟨j, hkj, h1, by omega⟩
  · -- a write to the table moves nothing
    rw [hput]
    have hfar' : ∀ i, arrayIndex? key = some i → es.size ≤ i := fun i h => by
      have := hfar i h
      omega
    simp only [getOwn_array hl, arrayLookup_set_self hfar', elemCount_array, true_and]
    constructor
    · rintro - ⟨k, -, -, j, -, h1, h2⟩
      omega
    · intro _ k hk' hkl
      rw [getOwn_array hkl, getOwn_array hkl, arrayLookup_set_ne hk']

/-! ## Which writes keep the layout -/

/-- A step that keeps the table's keys and adds only keys that name no slot keeps the layout
exactly when it grows the vector over no index that the table holds. -/
theorem tableAboveElems_step_iff {o o' : Obj} (hinv : o.TableAboveElems)
    (hsub : ∀ k ∈ o.props.map Prod.fst, k ∈ o'.props.map Prod.fst)
    (hnew : ∀ k ∈ o'.props.map Prod.fst, k ∉ o.props.map Prod.fst →
      ∀ j, arrayIndex? k = some j → o'.elemCount ≤ j) :
    o'.TableAboveElems ↔
      ¬∃ k ∈ o.props.map Prod.fst, ∃ j, arrayIndex? k = some j ∧ o.elemCount ≤ j ∧
        j < o'.elemCount := by
  constructor
  · rintro h' ⟨k, hk, j, hkj, -, hlt⟩
    have := h' k (hsub k hk) j hkj
    omega
  · intro hno k hk' j hkj
    by_cases hk : k ∈ o.props.map Prod.fst
    · have hold := hinv k hk j hkj
      by_contra hlt
      exact hno ⟨k, hk, j, hkj, hold, by omega⟩
    · exact hnew k hk' hk j hkj

theorem tableAboveElems_putOwn_iff
    (hinv : (⟨.array es, cls, props, proto⟩ : Obj).TableAboveElems) (key : String) (v : Value) :
    ((⟨.array es, cls, props, proto⟩ : Obj).putOwn key v).TableAboveElems ↔
      ¬∃ k ∈ props.map Prod.fst, ∃ j, arrayIndex? k = some j ∧
        (⟨.array es, cls, props, proto⟩ : Obj).elemCount ≤ j ∧
        j < ((⟨.array es, cls, props, proto⟩ : Obj).putOwn key v).elemCount := by
  -- the table keeps its keys; a table write adds one that names no slot
  have hsame : ∀ es', (⟨.array es', cls, props, proto⟩ : Obj).TableAboveElems ↔
      ¬∃ k ∈ props.map Prod.fst, ∃ j, arrayIndex? k = some j ∧ es.size ≤ j ∧ j < es'.size :=
    fun es' => tableAboveElems_step_iff hinv (fun _ hk => hk) (fun _ hk hk' => absurd hk hk')
  rcases @putOwn_array_cases es cls props proto key v with
    ⟨-, es', hput⟩ | ⟨i, -, -, hput⟩ | ⟨i, -, -, hput⟩ | ⟨-, hfar, hput⟩
  · rw [hput]
    exact hsame es'
  · rw [hput]
    exact hsame _
  · rw [hput]
    exact hsame _
  · rw [hput]
    apply tableAboveElems_step_iff hinv
    · intro k hk
      exact Props.mem_keys_set.mpr (.inr hk)
    · intro k hk' hk j hkj
      rcases Props.mem_keys_set.mp hk' with rfl | hk''
      · have := hfar j hkj
        simp only [elemCount_array]
        omega
      · exact absurd hk'' hk

theorem tableAboveElems_deleteOwn
    (hinv : (⟨.array es, cls, props, proto⟩ : Obj).TableAboveElems) (key : String) :
    ((⟨.array es, cls, props, proto⟩ : Obj).deleteOwn key).TableAboveElems := by
  obtain ⟨es', hsize, hdel | hdel⟩ := @deleteOwn_array es cls props proto key
  · rw [hdel]
    intro k hk j hkj
    have := hinv k hk j hkj
    simp only [elemCount_array] at this ⊢
    omega
  · rw [hdel]
    intro k hk j hkj
    have := hinv k (Props.mem_keys_erase.mp hk).2 j hkj
    simp only [elemCount_array] at this ⊢
    omega

end Obj

/-! ## Arrays built by writes and deletes -/

/-- The arrays reachable from a fresh array, the object `World.allocArray` makes, by any
sequence of writes and deletes of own properties. -/
inductive ArrayHistory : Obj → Prop
  | fresh (elems : List Value) (proto : Option ObjId) :
      ArrayHistory ⟨.array (elems.map some).toArray, .array, [], proto⟩
  | put {o : Obj} (key : String) (v : Value) : ArrayHistory o → ArrayHistory (o.putOwn key v)
  | delete {o : Obj} (key : String) : ArrayHistory o → ArrayHistory (o.deleteOwn key)

/-- Every array with a history is an array whose table holds each key once. -/
theorem ArrayHistory.shape {o : Obj} (h : ArrayHistory o) :
    ∃ es cls props proto, o = ⟨.array es, cls, props, proto⟩ ∧ (props.map Prod.fst).Nodup := by
  induction h with
  | fresh elems proto => exact ⟨_, _, [], proto, rfl, List.nodup_nil⟩
  | put key v _ ih =>
    obtain ⟨es, cls, props, proto, rfl, hnd⟩ := ih
    rcases @Obj.putOwn_array_cases es cls props proto key v with ⟨-, es', hput⟩ | ⟨i, -, -, hput⟩ | ⟨i, -, -, hput⟩ | ⟨-, -, hput⟩
    · exact ⟨_, _, _, _, hput, hnd⟩
    · exact ⟨_, _, _, _, hput, hnd⟩
    · exact ⟨_, _, _, _, hput, hnd⟩
    · exact ⟨_, _, _, _, hput, Props.nodup_keys_set hnd⟩
  | delete key _ ih =>
    obtain ⟨es, cls, props, proto, rfl, hnd⟩ := ih
    obtain ⟨es', -, hdel | hdel⟩ := @Obj.deleteOwn_array es cls props proto key
    · exact ⟨_, _, _, _, hdel, hnd⟩
    · exact ⟨_, _, _, _, hdel, Props.nodup_keys_erase hnd⟩

/-! ## Main statement -/

/-- For every array built by writes and deletes, with a vector shorter than `2^64` as every
vector of the engine is: its keys agree exactly when its table holds no index below its length;
a write is local exactly when it grows the vector over no index that the table holds under
another key; and from that layout, deletes keep it, and a write keeps it exactly when it grows
the vector over no index that the table holds. -/
theorem array_keys_agree_iff_layout {o : Obj} (ho : ArrayHistory o)
    (hsize : o.elemCount ≤ Nat.pow 2 64) :
    (o.KeysAgree ↔ o.TableAboveElems) ∧
    (∀ key v, key ≠ lengthKey →
      (o.WriteIsLocal key v ↔ ¬∃ k ∈ o.props.map Prod.fst, k ≠ key ∧
        ∃ i, arrayIndex? k = some i ∧ o.elemCount ≤ i ∧ i < (o.putOwn key v).elemCount)) ∧
    (o.TableAboveElems →
      (∀ key, (o.deleteOwn key).TableAboveElems) ∧
      ∀ key v, ((o.putOwn key v).TableAboveElems ↔
        ¬∃ k ∈ o.props.map Prod.fst, ∃ i, arrayIndex? k = some i ∧ o.elemCount ≤ i ∧
          i < (o.putOwn key v).elemCount)) := by
  obtain ⟨es, cls, props, proto, rfl, hnd⟩ := ho.shape
  refine ⟨⟨Obj.tableAboveElems_of_keysAgree, Obj.keysAgree_of_tableAboveElems hnd hsize⟩,
    fun key v hl => Obj.writeIsLocal_iff hl, fun hinv => ⟨Obj.tableAboveElems_deleteOwn hinv,
      Obj.tableAboveElems_putOwn_iff hinv⟩⟩

/-- Index `65537` written to an empty array goes to the table; padding to `65536` and writing
`65537` again grows the vector over it, and the key is listed twice. -/
theorem far_index_listed_twice :
    ArrayHistory ((((⟨.array #[], .array, [], none⟩ : Obj).putOwn "65537" (.num (.int 1))).putOwn
      "65536" (.num (.int 2))).putOwn "65537" (.num (.int 3))) ∧
    ((((⟨.array #[], .array, [], none⟩ : Obj).putOwn "65537" (.num (.int 1))).putOwn
      "65536" (.num (.int 2))).putOwn "65537" (.num (.int 3))).elemCount ≤ Nat.pow 2 64 ∧
    ¬((((⟨.array #[], .array, [], none⟩ : Obj).putOwn "65537" (.num (.int 1))).putOwn
      "65536" (.num (.int 2))).putOwn "65537" (.num (.int 3))).KeysAgree := by
  have hist : ArrayHistory ((((⟨.array #[], .array, [], none⟩ : Obj).putOwn "65537"
      (.num (.int 1))).putOwn "65536" (.num (.int 2))).putOwn "65537" (.num (.int 3))) :=
    .put _ _ (.put _ _ (.put _ _ (.fresh [] none)))
  -- the first write lands in the table, the next two pad the vector
  have h1 : (⟨.array #[], .array, [], none⟩ : Obj).putOwn "65537" (.num (.int 1)) =
      ⟨.array #[], .array, [("65537", .num (.int 1))], none⟩ := by
    rw [Obj.putOwn_array_far (i := 65537) (by decide) (by decide)]
    rfl
  have h2 : (⟨.array #[], .array, [("65537", .num (.int 1))], none⟩ : Obj).putOwn "65536"
      (.num (.int 2)) = ⟨.array ((resize #[] 65536).push (some (.num (.int 2)))), .array,
        [("65537", .num (.int 1))], none⟩ :=
    Obj.putOwn_array_pad (i := 65536) (by decide) (by decide) (by decide)
  have h3 : (⟨.array ((resize #[] 65536).push (some (.num (.int 2)))), .array,
      [("65537", .num (.int 1))], none⟩ : Obj).putOwn "65537" (.num (.int 3)) =
      ⟨.array ((resize ((resize #[] 65536).push (some (.num (.int 2)))) 65537).push
        (some (.num (.int 3)))), .array, [("65537", .num (.int 1))], none⟩ :=
    Obj.putOwn_array_pad (i := 65537) (by decide) (by simp) (by simp)
  have hcount : ((((⟨.array #[], .array, [], none⟩ : Obj).putOwn "65537" (.num (.int 1))).putOwn
      "65536" (.num (.int 2))).putOwn "65537" (.num (.int 3))).elemCount = 65538 := by
    rw [h1, h2, h3]
    simp
  have hbound : ((((⟨.array #[], .array, [], none⟩ : Obj).putOwn "65537"
      (.num (.int 1))).putOwn "65536" (.num (.int 2))).putOwn "65537"
      (.num (.int 3))).elemCount ≤ Nat.pow 2 64 := by
    rw [hcount]
    decide
  refine ⟨hist, hbound, fun hagree => ?_⟩
  have hlayout := (array_keys_agree_iff_layout hist hbound).1.mp hagree
  have hkey : "65537" ∈ ((((⟨.array #[], .array, [], none⟩ : Obj).putOwn "65537"
      (.num (.int 1))).putOwn "65536" (.num (.int 2))).putOwn "65537"
      (.num (.int 3))).props.map Prod.fst := by
    rw [h1, h2, h3]
    simp
  have := hlayout "65537" hkey 65537 (by decide)
  rw [hcount] at this
  omega

end EcmaLite
