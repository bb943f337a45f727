import IndexedStore.Proofs.KeyFields

/-!
# Writes to entries

A well-typed entry has a type and a value at each position of its shape. A write goes through at
such a position if it brings a value of the type there; then it changes this one value.
-/
namespace IndexedStore.Entry

variable {e : Entry} {shape : Shape} {p q : Nat} {v : Value} {t : FieldType}

theorem Typed.conforms (he : e.Typed) : e.Conforms e.shape := ⟨he, rfl⟩

theorem Typed.reads (he : e.Typed) (hp : e.shape.field? p = some t) :
    e.offset? p = .ok (p - 1) ∧ itemAt e.shape.fields (p - 1) = .ok t ∧
      itemAt e.values (p - 1) = .ok (e.field p) := by
  obtain ⟨hpos, hlt, hfield⟩ := lt_of_field? hp
  rw [← he.length] at hlt
  exact ⟨if_neg (by rw [arity]; omega), Checked.itemAt_eq hfield, itemAt_values hlt⟩

theorem Typed.offset?_of_none (he : e.Typed) (hp : e.shape.field? p = none) :
    e.offset? p = .error (.positionOutOfRange p e.arity) := by
  refine if_pos ?_
  rw [Shape.field?] at hp
  split at hp
  next hzero => exact .inl hzero
  next hpos =>
    have := List.getElem?_eq_none_iff.1 hp
    rw [arity, he.length, Shape.arity]
    omega

theorem Typed.get_eq (he : e.Typed) (hp : e.shape.field? p = some t) :
    e.get p = .ok (e.field p) := by
  obtain ⟨hoffset, -, hvalue⟩ := he.reads hp
  rw [get, hoffset]
  exact hvalue

/-! ## The entry after a write -/

theorem conforms_withValue (he : e.Conforms shape) (hp : shape.field? p = some t)
    (hv : v.type = t) : (e.withValue (p - 1) v).Conforms shape := by
  obtain ⟨-, hlt, ht⟩ := lt_of_field? hp
  obtain ⟨_, ht⟩ := List.getElem?_eq_some_iff.1 ht
  refine ⟨?_, he.shape_eq⟩
  change (e.values.set (p - 1) v).map Value.type = e.shape.fields
  rw [List.map_set, he.typed, he.shape_eq, hv, ← ht, List.set_getElem_self]

theorem field_withValue (he : e.Conforms shape) (hp : shape.field? p = some t) :
    (e.withValue (p - 1) v).field p = v := by
  obtain ⟨-, hlt, -⟩ := lt_of_field? hp
  rw [← he.length] at hlt
  simp [field, valueAt, withValue, hlt]

theorem field_withValue_of_ne (hp : 0 < p) (hq : 0 < q) (h : q ≠ p) :
    (e.withValue (p - 1) v).field q = e.field q := by
  have hne : p - 1 ≠ q - 1 := by omega
  simp [field, valueAt, withValue, List.getElem?_set_ne hne]

theorem withValue_field (he : e.Conforms shape) (hp : shape.field? p = some t) :
    e.withValue (p - 1) (e.field p) = e := by
  obtain ⟨-, hlt, -⟩ := lt_of_field? hp
  rw [← he.length] at hlt
  rw [withValue, field, valueAt, List.getD_eq_getElem?_getD, List.getElem?_eq_getElem hlt,
    Option.getD_some, List.set_getElem_self]

theorem withValue_withValue (e : Entry) (o : Nat) (v w : Value) :
    (e.withValue o v).withValue o w = e.withValue o w := by
  rw [withValue, withValue, withValue, List.set_set]

theorem get_withValue_of_ne (hp : 0 < p) (h : q ≠ p) :
    (e.withValue (p - 1) v).get q = e.get q := by
  have hlength : (e.withValue (p - 1) v).values.length = e.values.length := List.length_set
  by_cases hq : q = 0 ∨ e.arity < q
  · rw [get, get, offset?, offset?, arity, hlength, ← arity, if_pos hq]
    rfl
  · have hne : p - 1 ≠ q - 1 := by omega
    rw [get, get, offset?, offset?, arity, hlength, ← arity, if_neg hq]
    simp [demand, itemAt, withValue, List.getElem?_set_ne hne]

/-! ## Which writes go through -/

theorem Typed.set?_of_none (he : e.Typed) (hp : e.shape.field? p = none) :
    e.set? p v = .error (.positionOutOfRange p e.arity) := by
  rw [set?, he.offset?_of_none hp]
  rfl

theorem Typed.set?_eq (he : e.Typed) (hp : e.shape.field? p = some t) :
    e.set? p v = if v.type = t then .ok (e.withValue (p - 1) v)
      else .error (.typeMismatch p t v.type) := by
  obtain ⟨-, -, hfield⟩ := lt_of_field? hp
  rw [set?, (he.reads hp).1, Checked.ok_bind, hfield]

theorem Typed.set?_cases (he : e.Typed) (p : Nat) (v : Value) :
    (e.shape.field? p = some v.type ∧ e.set? p v = .ok (e.withValue (p - 1) v)) ∨
      (e.shape.field? p ≠ some v.type ∧ ∃ error, e.set? p v = .error error) := by
  cases hp : e.shape.field? p with
  | none => exact .inr ⟨by simp, _, he.set?_of_none hp⟩
  | some t =>
    rw [he.set?_eq hp]
    by_cases hv : v.type = t
    · exact .inl ⟨by rw [hv], if_pos hv⟩
    · exact .inr ⟨fun h => hv (Option.some.inj h).symm, _, if_neg hv⟩

theorem Typed.unset_cases (he : e.Typed) (p : Nat) :
    (∃ t, e.shape.field? p = some t ∧ e.unset p = .ok (e.withValue (p - 1) (.unset t))) ∨
      (e.shape.field? p = none ∧ ∃ fault, e.unset p = .error fault) := by
  rw [unset]
  cases hp : e.shape.field? p with
  | none =>
    rw [he.offset?_of_none hp]
    exact .inr ⟨rfl, _, rfl⟩
  | some t =>
    obtain ⟨hoffset, htype, -⟩ := he.reads hp
    refine .inl ⟨t, rfl, ?_⟩
    rw [hoffset, demand, Checked.ok_bind, htype]
    rfl

theorem Typed.accumulate_cases (he : e.Typed) (sign : Sign) (p : Nat) (v : Value) :
    ((e.shape.field? p = some v.type ∧ v.type.isNumeric = true) ∧ e.accumulate sign p v =
        .ok (e.withValue (p - 1) (sign.accumulate (e.field p) v))) ∨
      (¬(e.shape.field? p = some v.type ∧ v.type.isNumeric = true) ∧
        ∃ fault, e.accumulate sign p v = .error fault) := by
  rw [accumulate]
  cases hp : e.shape.field? p with
  | none =>
    rw [he.offset?_of_none hp]
    exact .inr ⟨by simp, _, rfl⟩
  | some t =>
    obtain ⟨hoffset, htype, hvalue⟩ := he.reads hp
    rw [hoffset, demand, Checked.ok_bind, htype, Checked.ok_bind, hvalue]
    by_cases hv : t.isNumeric = true ∧ v.type = t
    · obtain ⟨hnumeric, rfl⟩ := hv
      exact .inl ⟨⟨rfl, hnumeric⟩, if_pos ⟨hnumeric, rfl⟩⟩
    · refine .inr ⟨?_, _, if_neg hv⟩
      rintro ⟨htypes, hnumeric⟩
      obtain rfl := Option.some.inj htypes
      exact hv ⟨hnumeric, rfl⟩

end IndexedStore.Entry
