import EcmaLite.Proofs.Sound

/-!
# What an object stores

The values an object holds are those of its table and, for an array, those of its element
slots (`Obj.Stores`). Writing a property adds at most the value written, deleting adds nothing,
and reading an own property gives a stored value or an array's length. So what any lookup finds,
along prototypes or in a scope, some object or scope of the world holds: an invariant that every
held value has a property holds of what a lookup gives.
-/

namespace EcmaLite

theorem Elements.slot_map_some {elems : List Value} {j : Nat} :
    Elements.slot (elems.map some).toArray j = elems[j]? := by
  simp only [Elements.slot, List.getElem?_toArray, List.getElem?_map]
  cases elems[j]? <;> rfl

namespace Obj

variable {o : Obj} {key : String} {v x : Value}

/-- Value `x` is stored in object `o`: under a key of its table, or in an element slot. -/
def Stores (o : Obj) (x : Value) : Prop :=
  (∃ kv ∈ o.props, kv.2 = x) ∨ ∃ es, o.kind = .array es ∧ ∃ j, Elements.slot es j = some x

/-- An object whose table entries and element slots come from those of `o`, or satisfy `R`,
stores only what `o` does and values satisfying `R`. -/
theorem stores_of_parts {o' : Obj} {R : Value → Prop} (h : o'.Stores x)
    (hprops : ∀ kv ∈ o'.props, kv ∈ o.props ∨ R kv.2)
    (helems : ∀ es', o'.kind = .array es' → ∀ j y, Elements.slot es' j = some y →
      R y ∨ ∃ es, o.kind = .array es ∧ ∃ i, Elements.slot es i = some y) :
    o.Stores x ∨ R x := by
  rcases h with ⟨kv, hkv, rfl⟩ | ⟨es', hes', j, hj⟩
  · rcases hprops kv hkv with hmem | hR
    · exact .inl (.inl ⟨kv, hmem, rfl⟩)
    · exact .inr hR
  · rcases helems es' hes' j x hj with hR | hold
    · exact .inr hR
    · exact .inl (.inr hold)

/-- The parts lemma for an array that stays an array with the same table or one made from it. -/
theorem stores_of_array {es es' : Array (Option Value)} {cls : ClassTag}
    {props props' : List (String × Value)} {proto proto' : Option ObjId} {R : Value → Prop}
    (h : (⟨.array es', cls, props', proto'⟩ : Obj).Stores x)
    (hprops : ∀ kv ∈ props', kv ∈ props ∨ R kv.2)
    (helems : ∀ j y, Elements.slot es' j = some y → R y ∨ Elements.slot es j = some y) :
    (⟨.array es, cls, props, proto⟩ : Obj).Stores x ∨ R x := by
  refine stores_of_parts h hprops fun es'' hes'' j y hy => ?_
  cases hes''
  rcases helems j y hy with hR | hslot
  · exact .inl hR
  · exact .inr ⟨es, rfl, j, hslot⟩

/-- Writing a property stores the value written and keeps the rest. -/
theorem stores_putOwn (h : (o.putOwn key v).Stores x) : o.Stores x ∨ x = v := by
  obtain ⟨kind, cls, props, proto⟩ := o
  have hset : ∀ kv ∈ Props.set props key v, kv ∈ props ∨ kv.2 = v := by
    intro kv hkv
    rcases Props.mem_set hkv with hmem | rfl
    · exact .inl hmem
    · exact .inr rfl
  have hkeep : ∀ kv ∈ props, kv ∈ props ∨ kv.2 = v := fun kv hkv => .inl hkv
  cases kind with
  | array es =>
    rcases @putOwn_array_cases es cls props proto key v with
      ⟨rfl, -⟩ | ⟨i, -, hi, hput⟩ | ⟨i, -, -, hput⟩ | ⟨-, -, hput⟩
    · obtain ⟨es', hput, hslot⟩ := @putOwn_length_slot v es cls props proto
      rw [hput] at h
      exact stores_of_array (R := (· = v)) h hkeep fun j y hy => .inr (hslot j y hy)
    · -- an element slot inside the array
      rw [hput] at h
      refine stores_of_array (R := (· = v)) h hkeep fun j y hy => ?_
      by_cases hji : j = i
      · subst hji
        rw [Elements.slot_set_self hi] at hy
        cases hy
        exact .inl rfl
      · rw [Elements.slot_set_ne hji] at hy
        exact .inr hy
    · -- a slot past the end, the gap filled with holes
      rw [hput] at h
      refine stores_of_array (R := (· = v)) h hkeep fun j y hy => ?_
      rw [Elements.slot_push] at hy
      split at hy
      · cases hy
        exact .inl rfl
      · rw [Elements.slot_resize] at hy
        split at hy
        · exact .inr hy
        · cases hy
    · rw [hput] at h
      exact stores_of_array (R := (· = v)) h hset fun j y hy => .inr hy
  | ordinary => exact stores_of_parts (R := (· = v)) h hset fun _ h => by cases h
  | function name body => exact stores_of_parts (R := (· = v)) h hset fun _ h => by cases h

/-- Deleting a property stores nothing new. -/
theorem stores_deleteOwn (h : (o.deleteOwn key).Stores x) : o.Stores x := by
  obtain ⟨kind, cls, props, proto⟩ := o
  have herase : ∀ kv ∈ Props.erase props key, kv ∈ props ∨ False :=
    fun kv hkv => .inl (Props.mem_of_mem_erase hkv)
  have hkeep : ∀ kv ∈ props, kv ∈ props ∨ False := fun kv hkv => .inl hkv
  have hstores : (⟨kind, cls, props, proto⟩ : Obj).Stores x ∨ False := by
    cases kind with
    | array es =>
      obtain ⟨es', hdel | hdel, hslot⟩ := @deleteOwn_array_slot key es cls props proto
      · rw [hdel] at h
        exact stores_of_array (R := fun _ => False) h hkeep fun j y hy => .inr (hslot j y hy)
      · rw [hdel] at h
        exact stores_of_array (R := fun _ => False) h herase fun j y hy => .inr (hslot j y hy)
    | ordinary => exact stores_of_parts (R := fun _ => False) h herase fun _ h => by cases h
    | function name body =>
      exact stores_of_parts (R := fun _ => False) h herase fun _ h => by cases h
  exact hstores.resolve_right id

/-- An own property is a stored value, or the length of an array. -/
theorem getOwn_stores (h : o.getOwn key = some x) : o.Stores x ∨ ∃ n, x = .num n := by
  obtain ⟨kind, cls, props, proto⟩ := o
  have hprops : Props.get? props key = some x →
      (⟨kind, cls, props, proto⟩ : Obj).Stores x := by
    intro hget
    exact .inl (Props.exists_mem_of_get? hget)
  cases kind with
  | array es =>
    by_cases hl : key = lengthKey
    · simp only [Obj.getOwn, if_pos hl, Option.some.injEq] at h
      exact .inr ⟨_, h.symm⟩
    rw [getOwn_array hl] at h
    unfold arrayLookup at h
    split at h
    · split at h
      · exact .inl (.inr ⟨es, rfl, _, h⟩)
      · exact .inl (hprops h)
    · exact .inl (hprops h)
  | ordinary => exact .inl (hprops h)
  | function name body => exact .inl (hprops h)

theorem not_stores_plain {cls : ClassTag} {proto : Option ObjId} : ¬ (plain cls proto).Stores x := by
  rintro (⟨kv, hkv, -⟩ | ⟨es, hes, -⟩)
  · cases hkv
  · cases hes

end Obj

namespace World

variable {w : World} {key : String} {v : Value}

/-- A property found along prototypes is stored in some object, or is a number (an array's
length), or there is none and it reads `undefined`. -/
theorem getProp_stored {a : ObjId} (h : w.getProp a key = .ok v) :
    v = .undefined ∨ (∃ n, v = .num n) ∨ ∃ b, (w.obj b).Stores v := by
  unfold getProp at h
  cases hf : w.findUp (·.getOwn key) w.limits.maxChain a with
  | error f =>
    rw [hf] at h
    cases h
  | ok r =>
    rw [hf] at h
    cases h
    cases r with
    | none => exact .inl rfl
    | some x =>
      obtain ⟨b, hb⟩ := findUp_some hf
      rcases Obj.getOwn_stores hb with hst | hnum
      · exact .inr (.inr ⟨b, hst⟩)
      · exact .inr (.inl hnum)

/-- A binding found along scopes is bound in some scope. -/
theorem resolve_bound {s : ScopeId} {name : String} (h : w.resolve s name = some v) :
    ∃ s', ∃ kv ∈ (w.scope s').vars, kv.2 = v := by
  obtain ⟨s', -, hget⟩ := Option.bind_eq_some_iff.mp h
  exact ⟨s', Props.exists_mem_of_get? hget⟩

end World

end EcmaLite
