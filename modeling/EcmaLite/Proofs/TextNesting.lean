import EcmaLite.Coerce

/-!
# The text of nested arrays

`ToString` writes an array as the text of its elements joined by commas, so an array that holds
itself, directly or through other arrays, would be written forever. The writer stops at a fixed
nesting level instead: an array that deep is written as the empty text.

`World.renderWithin` is that rendering as its rules read. The nesting level counts from the top
(level 0) upward, and a budget bounds how deep the calls nest: each value written takes one
call, and the elements of an array are written with the calls left. The level decides what is
written; the budget only whether the writing finishes.

Main statement (`text_within_33_nested_calls`): on every heap, every value is written within 33
nested calls, as `World.text` writes it, and any budget that finishes gives that same text; an
array that holds itself needs all 33 calls, and `a = [a]` is written as the empty text. The two
directions are `renderWithin_sound` (a finished rendering is the text) and
`renderWithin_of_budget` (enough calls finish), each by induction on the budget or on the depth
left, and `renderWithin_self_holding` counts the calls of an array that holds itself.
-/

namespace EcmaLite

namespace World

/-- The text of an element slot of an array: holes, `undefined` and `null` are the empty text,
other values are written by `write`. -/
def renderSlot (write : Value → Option String) : Option Value → Option String
  | none | some .undefined | some .null => some ""
  | some v => write v

/-- The text of a value by the rules of `ToString`, written at nesting level `level` with at most
`calls` nested calls, or `none` when the calls would nest deeper. An array at level 32 or more is
the empty text; below it, its slots written at the next level and joined by commas. -/
def renderWithin (w : World) : (calls level : Nat) → Value → Option String
  | 0, _, _ => none
  | _ + 1, _, .undefined => some "undefined"
  | _ + 1, _, .null => some "null"
  | _ + 1, _, .bool b => some (toString b)
  | _ + 1, _, .str s => some s
  | _ + 1, _, .num n => some n.toText
  | k + 1, l, .obj id =>
    match (w.obj id).kind with
    | .array es =>
      if 32 ≤ l then some ""
      else (es.toList.mapM (renderSlot (w.renderWithin k (l + 1)))).map (",".intercalate)
    | .function name (.native _) => some ("function " ++ name ++ "() { [native code] }")
    | .function name (.script code _ _) =>
      some ("function " ++ name ++ "(" ++ ", ".intercalate code.params ++ ") { ... }")
    | .ordinary => some ("[object " ++ (w.obj id).cls.name ++ "]")

end World

/-! ## Writing a list of slots -/

section Slots

variable {α : Type} {f : α → Option String} {g : α → String}

/-- A list is written when each of its slots is, and then slot by slot. -/
theorem mapM_eq_some_map : ∀ {xs : List α}, (∀ x ∈ xs, f x = some (g x)) →
    xs.mapM f = some (xs.map g)
  | [], _ => rfl
  | x :: xs, h => by
    have hx := h x List.mem_cons_self
    have hxs := mapM_eq_some_map fun y hy => h y (List.mem_cons_of_mem x hy)
    simp [List.mapM_cons, hx, hxs]

/-- A list written in full is written slot by slot. -/
theorem eq_map_of_mapM_eq_some : ∀ {xs : List α} {r : List String}, xs.mapM f = some r →
    (∀ x ∈ xs, ∀ s, f x = some s → s = g x) → r = xs.map g
  | [], r, h, _ => by simpa using h.symm
  | x :: xs, r, h, hg => by
    simp only [List.mapM_cons, Option.bind_eq_bind, Option.bind_eq_some_iff, Option.pure_def,
      Option.some.injEq] at h
    obtain ⟨s, hs, rs, hrs, rfl⟩ := h
    have hx := hg x List.mem_cons_self s hs
    have hxs := eq_map_of_mapM_eq_some hrs fun y hy => hg y (List.mem_cons_of_mem x hy)
    rw [hx, hxs, List.map_cons]

/-- One slot that cannot be written stops the whole list. -/
theorem mapM_eq_none_of_mem : ∀ {xs : List α} {x : α}, x ∈ xs → f x = none → xs.mapM f = none
  | y :: xs, x, hx, h => by
    rcases List.mem_cons.mp hx with rfl | hx
    · simp [List.mapM_cons, h]
    · cases hy : f y with
      | none => simp [List.mapM_cons, hy]
      | some s => simp [List.mapM_cons, hy, mapM_eq_none_of_mem hx h]

end Slots

/-! ## Slots and the text of arrays -/

namespace World

variable (w : World)

/-- A slot is written as `textAt` writes it when every value that is not `undefined` or `null`
is. -/
theorem renderSlot_of_agree {write : Value → Option String} {text : Value → String}
    (h : ∀ v, v.isNothing = false → write v = some (text v)) (x : Option Value) :
    renderSlot write x = some (x.elim "" fun v => if v.isNothing then "" else text v) := by
  cases x with
  | none => rfl
  | some v =>
    cases v with
    | undefined | null => rfl
    | bool _ | str _ | num _ | obj _ => exact h _ rfl

/-- A written slot is the text `textAt` gives it, when every written value is. -/
theorem eq_of_renderSlot {write : Value → Option String} {text : Value → String}
    (h : ∀ v s, v.isNothing = false → write v = some s → s = text v) {x : Option Value}
    {s : String} (hx : renderSlot write x = some s) :
    s = x.elim "" fun v => if v.isNothing then "" else text v := by
  cases x with
  | none => exact (Option.some.inj hx).symm
  | some v =>
    cases v with
    | undefined | null => exact (Option.some.inj hx).symm
    | bool _ | str _ | num _ | obj _ => exact h _ _ rfl hx

/-- An array with no depth left is written as the empty text. -/
theorem textAt_array_zero {id : ObjId} {es : Array (Option Value)}
    (h : (w.obj id).kind = .array es) : w.textAt 0 (.obj id) = "" := by
  rw [textAt.eq_def]
  simp only [h]

/-- An array with depth left is its slots written one level deeper, joined by commas. -/
theorem textAt_array_succ {d : Nat} {id : ObjId} {es : Array (Option Value)}
    (h : (w.obj id).kind = .array es) :
    w.textAt (d + 1) (.obj id) = ",".intercalate (es.toList.map fun x =>
      x.elim "" fun v => if v.isNothing then "" else w.textAt d v) := by
  rw [textAt.eq_def]
  simp only [h]
  congr
  funext x
  cases x <;> rfl

/-- An array written with a call to spare: empty from level 32 on, its slots below. -/
theorem renderWithin_array {k l : Nat} {id : ObjId} {es : Array (Option Value)}
    (h : (w.obj id).kind = .array es) :
    w.renderWithin (k + 1) l (.obj id) =
      if 32 ≤ l then some ""
      else (es.toList.mapM (renderSlot (w.renderWithin k (l + 1)))).map (",".intercalate) := by
  simp only [renderWithin, h]

/-- What is not an array is written by one call, as `textAt` writes it at any depth. -/
theorem renderWithin_of_not_array {k l d : Nat} {v : Value} (hv : w.isArray v = false) :
    w.renderWithin (k + 1) l v = some (w.textAt d v) := by
  cases v with
  | bool b => rw [textAt.eq_def]; cases b <;> rfl
  | obj id =>
    rw [textAt.eq_def]
    cases hkind : (w.obj id).kind with
    | array es => simp [isArray, Obj.isArray, hkind] at hv
    | function name body => cases body <;> simp [renderWithin, hkind]
    | ordinary => simp [renderWithin, hkind]
  | undefined | null | str _ | num _ => rw [textAt.eq_def]; rfl

/-- An array value is an object whose kind is an array. -/
theorem exists_of_isArray {v : Value} (hv : w.isArray v = true) :
    ∃ id es, v = .obj id ∧ (w.obj id).kind = .array es := by
  cases v with
  | obj id =>
    cases hkind : (w.obj id).kind with
    | array es => exact ⟨id, es, rfl, hkind⟩
    | function | ordinary => simp [isArray, Obj.isArray, hkind] at hv
  | undefined | null | bool _ | str _ | num _ => simp [isArray] at hv

/-! ## The two directions -/

/-- A rendering that finishes at level `l` is the text with `32 - l` levels of depth left. The
induction is on the budget: an array below level 32 spends one call and writes its slots with
the rest. -/
theorem renderWithin_sound : ∀ {k l : Nat} {v : Value} {s : String}, l ≤ 32 →
    w.renderWithin k l v = some s → s = w.textAt (32 - l) v
  | 0, _, _, _, _, h => by simp [renderWithin] at h
  | k + 1, l, v, s, hl, h => by
    cases hv : w.isArray v with
    | false => exact (Option.some.inj ((renderWithin_of_not_array w hv).symm.trans h)).symm
    | true =>
      obtain ⟨id, es, rfl, hkind⟩ := exists_of_isArray w hv
      rw [renderWithin_array w hkind] at h
      by_cases hdeep : 32 ≤ l
      · -- level 32: no depth left, the array is the empty text
        rw [if_pos hdeep] at h
        rw [show 32 - l = 0 by omega, textAt_array_zero w hkind]
        exact (Option.some.inj h).symm
      · rw [if_neg hdeep] at h
        obtain ⟨r, hr, rfl⟩ := Option.map_eq_some_iff.mp h
        have hslots := eq_map_of_mapM_eq_some hr fun _ _ _ hx =>
          eq_of_renderSlot (fun _ _ _ hu => renderWithin_sound (by omega) hu) hx
        rw [show 32 - l = 32 - (l + 1) + 1 by omega, textAt_array_succ w hkind, hslots]

/-- With more calls than levels left, the rendering at level `l` finishes, and is the text with
`d = 32 - l` levels of depth left. The induction is on `d`. -/
theorem renderWithin_of_budget : ∀ {d l k : Nat} (v : Value), l + d = 32 → d < k →
    w.renderWithin k l v = some (w.textAt d v)
  | d, l, k + 1, v, hl, hk => by
    cases hv : w.isArray v with
    | false => exact renderWithin_of_not_array w hv
    | true =>
      obtain ⟨id, es, rfl, hkind⟩ := exists_of_isArray w hv
      rw [renderWithin_array w hkind]
      cases d with
      | zero => rw [if_pos (by omega), textAt_array_zero w hkind]
      | succ d =>
        -- below level 32: each slot is written one level deeper with one call less
        have hslots := mapM_eq_some_map fun x (_ : x ∈ es.toList) =>
          renderSlot_of_agree (fun u _ =>
            renderWithin_of_budget (d := d) (l := l + 1) (k := k) u (by omega) (by omega)) x
        rw [if_neg (by omega), textAt_array_succ w hkind, hslots, Option.map_some]

/-! ## Arrays that hold themselves -/

/-- An array that holds itself cannot be written at level `l` with `32 - l` calls or fewer: each
call writes it again one level deeper, until level 32 is reached with no call left. -/
theorem renderWithin_self_holding {a : ObjId} {es : Array (Option Value)}
    (h : (w.obj a).kind = .array es) (ha : some (.obj a) ∈ es) :
    ∀ {k l : Nat}, l + k ≤ 32 → w.renderWithin k l (.obj a) = none
  | 0, _, _ => rfl
  | k + 1, l, hk => by
    have hself : renderSlot (w.renderWithin k (l + 1)) (some (.obj a)) = none :=
      renderWithin_self_holding h ha (by omega)
    rw [renderWithin_array w h, if_neg (by omega),
      mapM_eq_none_of_mem (Array.mem_toList_iff.mpr ha) hself, Option.map_none]

/-- An array whose one slot is itself is written as the empty text at every depth. -/
theorem textAt_holding_only_itself {a : ObjId} (h : (w.obj a).kind = .array #[some (.obj a)]) :
    ∀ d, w.textAt d (.obj a) = ""
  | 0 => textAt_array_zero w h
  | d + 1 => by
    rw [textAt_array_succ w h]
    simp [textAt_holding_only_itself h d, Value.isNothing]

end World

/-- `ToString` finishes on every heap within 33 nested calls and is the rendering of its rules:
a budget of 33 calls or more writes every value as `text` does, and any budget that finishes
gives that text. An array that holds itself needs all 33 calls, and the array `a = [a]` is the
empty text. -/
theorem text_within_33_nested_calls (w : World) :
    (∀ k v, 33 ≤ k → w.renderWithin k 0 v = some (w.text v)) ∧
    (∀ k v s, w.renderWithin k 0 v = some s → s = w.text v) ∧
    (∀ a es, (w.obj a).kind = .array es → some (.obj a) ∈ es →
      w.renderWithin 32 0 (.obj a) = none) ∧
    (∀ a, (w.obj a).kind = .array #[some (.obj a)] → w.text (.obj a) = "") :=
  ⟨fun _ v hk => w.renderWithin_of_budget v rfl (Nat.lt_of_lt_of_le (by decide) hk),
    fun _ _ _ h => w.renderWithin_sound (Nat.zero_le _) h,
    fun _ _ h ha => w.renderWithin_self_holding h ha (Nat.le_refl _),
    fun _ h => w.textAt_holding_only_itself h _⟩

/-- A heap of one array whose one slot is itself. -/
def World.selfHolding : World where
  objs := #[⟨.array #[some (.obj 0)], .array, [], none⟩]
  scopes := #[]
  printed := #[]
  protos := ⟨0, 0, 0⟩
  limits := ⟨128, 32⟩
  ctx := default

/-- The array `a = [a]` is written as the empty text, within 33 nested calls and not within
32. -/
theorem array_holding_itself_is_empty_text :
    (World.selfHolding.obj 0).kind = .array #[some (.obj 0)] ∧
    World.selfHolding.text (.obj 0) = "" ∧
    World.selfHolding.renderWithin 33 0 (.obj 0) = some "" ∧
    World.selfHolding.renderWithin 32 0 (.obj 0) = none :=
  have h : (World.selfHolding.obj 0).kind = .array #[some (.obj 0)] := rfl
  have hempty := (text_within_33_nested_calls World.selfHolding).2.2.2 0 h
  ⟨h, hempty, hempty ▸ (text_within_33_nested_calls World.selfHolding).1 33 _ (Nat.le_refl _),
    (text_within_33_nested_calls World.selfHolding).2.2.1 0 _ h (by simp)⟩

end EcmaLite
