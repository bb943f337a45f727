import IndexedStore.Proofs.Descriptions

/-!
# Key fields

The key fields of an index are the positions its descriptor lists, or all positions of the shape if
it lists none. What an index finds out about keys through its projection holds of the entries field
by field, at these positions.
-/
namespace IndexedStore

namespace Entry

/-- The value at a position, counted from one. -/
def field (e : Entry) (position : Nat) : Value := e.valueAt (position - 1)

def IsSet (positions : List Nat) (e : Entry) : Prop := ∀ p ∈ positions, (e.field p).isUnset = false

instance (positions : List Nat) (e : Entry) : Decidable (e.IsSet positions) :=
  inferInstanceAs (Decidable (∀ p ∈ positions, (e.field p).isUnset = false))

/-- Whether two entries have the same values at some positions, sentinels included. -/
def Level (positions : List Nat) (a b : Entry) : Prop :=
  ∀ p ∈ positions, (a.field p).compare (b.field p) = .eq

/-- Whether two entries have the same values at some positions up to wildcards, on either side. -/
def Agrees (positions : List Nat) (a b : Entry) : Prop :=
  ∀ p ∈ positions, (a.field p).isUnset = true ∨ (b.field p).isUnset = true ∨
    (a.field p).compare (b.field p) = .eq

instance (positions : List Nat) (a b : Entry) : Decidable (a.Level positions b) :=
  inferInstanceAs (Decidable (∀ p ∈ positions, _))

instance (positions : List Nat) (a b : Entry) : Decidable (a.Agrees positions b) :=
  inferInstanceAs (Decidable (∀ p ∈ positions, _))

variable {positions : List Nat} {a b c : Entry}

theorem Level.refl (a : Entry) : a.Level positions a := fun _ _ => Std.ReflCmp.compare_self

theorem Level.symm (h : a.Level positions b) : b.Level positions a := fun p hp =>
  Std.OrientedCmp.eq_symm (h p hp)

theorem Level.trans (hab : a.Level positions b) (hbc : b.Level positions c) :
    a.Level positions c := fun p hp => Std.TransCmp.eq_trans (hab p hp) (hbc p hp)

theorem agrees_iff_level (ha : a.IsSet positions) (hb : b.IsSet positions) :
    a.Agrees positions b ↔ a.Level positions b := by
  refine forall₂_congr fun p hp => ?_
  simp [ha p hp, hb p hp]

section Types

variable {shape : Shape} {e : Entry} {p : Nat} {t : FieldType}

theorem lt_of_field? (hp : shape.field? p = some t) :
    0 < p ∧ p - 1 < shape.arity ∧ shape.fields[p - 1]? = some t := by
  rw [Shape.field?] at hp
  split at hp
  · cases hp
  · exact ⟨by omega, (List.getElem?_eq_some_iff.1 hp).1, hp⟩

theorem type_field (he : e.Conforms shape) (hp : shape.field? p = some t) :
    (e.field p).type = t := by
  obtain ⟨-, hlt, ht⟩ := lt_of_field? hp
  rw [← he.shape_eq, ← he.typed, List.getElem?_map] at ht
  obtain ⟨v, hv, rfl⟩ := Option.map_eq_some_iff.1 ht
  rw [field, valueAt, List.getD_eq_getElem?_getD, hv]
  rfl

end Types

end Entry

namespace Projection

variable {π : Projection} {a b e : Entry}

theorem keyOf_eq_map_field (π : Projection) (e : Entry) : π.keyOf e = π.positions.map e.field := by
  rw [keyOf, positions, List.map_map]
  rfl

section Fields

variable {positions : List Nat} (hkey : ∀ e, π.keyOf e = positions.map e.field)
include hkey

theorem isPartial_iff_of_fields :
    (π.keyOf e).isPartial = true ↔ ∃ p ∈ positions, (e.field p).isUnset = true := by
  rw [hkey, Key.isPartial, List.any_map, List.any_eq_true]
  rfl

theorem isSet_iff_of_fields : (π.keyOf e).isPartial = false ↔ e.IsSet positions := by
  rw [hkey, Key.isPartial, List.any_map, List.any_eq_false]
  simp [Entry.IsSet]

theorem level_iff_of_fields : Key.compare (π.keyOf a) (π.keyOf b) = .eq ↔ a.Level positions b := by
  rw [hkey, hkey, Key.compare_eq_eq_iff, List.forall₂_map_left_iff, List.forall₂_map_right_iff,
    List.forall₂_same]
  rfl

theorem agrees_iff_of_fields :
    (π.keyOf a).agrees (π.keyOf b) = true ↔ a.Agrees positions b := by
  rw [hkey, hkey, Key.agrees, List.zip_map', List.all_map, List.all_eq_true]
  simp [Entry.Agrees, Value.same_eq_true_iff, or_assoc]

end Fields

end Projection

namespace Descriptor

def keyFields (shape : Shape) (d : Descriptor) : List Nat :=
  if d.fields.isEmpty then shape.positions else d.fields

end Descriptor

namespace Declared.Stands

variable {shape : Shape} {d : Declared} {a b e : Entry} (hd : d.Stands shape)
include hd

theorem keyOf_eq (e : Entry) :
    d.index.projection.keyOf e = (d.descriptor.keyFields shape).map e.field := by
  obtain ⟨_, _, hoffsets⟩ := hd.describes
  rw [Projection.keyOf, hoffsets, List.map_map]
  rfl

theorem isPartial_iff : (d.index.projection.keyOf e).isPartial = true ↔
    ∃ p ∈ d.descriptor.keyFields shape, (e.field p).isUnset = true :=
  Projection.isPartial_iff_of_fields hd.keyOf_eq

theorem isPartial_eq_false_iff : (d.index.projection.keyOf e).isPartial = false ↔
    e.IsSet (d.descriptor.keyFields shape) :=
  Projection.isSet_iff_of_fields hd.keyOf_eq

theorem compare_keyOf_iff :
    Key.compare (d.index.projection.keyOf a) (d.index.projection.keyOf b) = .eq ↔
      a.Level (d.descriptor.keyFields shape) b :=
  Projection.level_iff_of_fields hd.keyOf_eq

theorem agrees_keyOf_iff :
    (d.index.projection.keyOf a).agrees (d.index.projection.keyOf b) = true ↔
      a.Agrees (d.descriptor.keyFields shape) b :=
  Projection.agrees_iff_of_fields hd.keyOf_eq

end Declared.Stands
end IndexedStore
