import IndexedStore.Proofs.KeyFields
import IndexedStore.Proofs.KeyRanges

/-!
# Comparisons of entries and of keys

A projection compares entries in place, or projects them and compares their keys. Both ways give the
same answers: up to wildcards, exactly, and on which fields are set. Between fully set keys there are
no wildcards, and the comparison up to wildcards is the strict total order of the tuples.
-/
namespace IndexedStore

namespace Key

variable {a b c key : Key} {width : Nat}

theorem agrees_cons (x y : Value) (a b : Key) : agrees (x :: a) (y :: b) =
    ((x.isUnset || y.isUnset || x.same y) && agrees a b) := rfl

theorem compareSet_eq_eq_iff : compareSet a b = .eq ↔ a.agrees b = true := by
  induction a generalizing b with
  | nil => exact iff_of_true rfl rfl
  | cons x a ih =>
    cases b with
    | nil => exact iff_of_true rfl rfl
    | cons y b =>
      rw [compareSet, agrees_cons, Bool.and_eq_true, ← ih]
      split
      next hwild => simp [hwild]
      next hwild =>
        rw [Bool.not_eq_true] at hwild
        rw [hwild, Bool.false_or, Ordering.then_eq_eq, Value.same_eq_true_iff]

theorem compareSet_eq_swap (a b : Key) : compareSet a b = (compareSet b a).swap := by
  induction a generalizing b with
  | nil => cases b <;> rfl
  | cons x a ih =>
    cases b with
    | nil => rfl
    | cons y b =>
      have head : x.compare y = (y.compare x).swap := Std.OrientedCmp.eq_swap
      rw [compareSet, compareSet, Bool.or_comm y.isUnset, ih b]
      split
      next => rfl
      next => rw [Ordering.swap_then, head]

theorem isPartial_iff_leadLength : key.isPartial = true ↔ key.leadLength < key.length := by
  induction key with
  | nil => exact iff_of_false (by decide) (by decide)
  | cons v key ih =>
    cases hv : v.isUnset with
    | true => simp [isPartial, hv, leadLength_cons_unset]
    | false =>
      rw [leadLength_cons_set hv, List.length_cons, Nat.add_lt_add_iff_right, ← ih]
      simp [isPartial, hv]

def Equal (a b : Key) : Prop := List.Forall₂ (fun v w => v.same w = true) a b

theorem compare_eq_iff_equal : compare a b = .eq ↔ a.Equal b := by
  simp only [compare_eq_eq_iff, Equal, Value.same_eq_true_iff]

structure Full (width : Nat) (key : Key) : Prop where
  length_eq : key.length = width
  isSet : key.isPartial = false

instance (width : Nat) (key : Key) : Decidable (key.Full width) :=
  decidable_of_iff (key.length = width ∧ key.isPartial = false)
    ⟨fun h => ⟨h.1, h.2⟩, fun h => ⟨h.1, h.2⟩⟩

theorem Full.compareSet_eq (ha : a.Full width) (hb : b.Full width) :
    compareSet a b = compare a b :=
  Key.compareSet_eq (ha.length_eq.trans hb.length_eq.symm) ha.isSet hb.isSet

/-- On fully set keys of one width the order up to wildcards is strict, transitive and total. -/
theorem Full.strict_total (ha : a.Full width) (hb : b.Full width) (hc : c.Full width) :
    (a.Equal b → compareSet a b ≠ .lt) ∧
    (compareSet a b = .lt → compareSet b c = .lt → compareSet a c = .lt) ∧
    (compareSet a b = .lt ∨ a.Equal b ∨ compareSet b a = .lt) := by
  rw [ha.compareSet_eq hb, hb.compareSet_eq hc, ha.compareSet_eq hc, hb.compareSet_eq ha,
    ← compare_eq_iff_equal]
  refine ⟨?irreflexive, Std.TransCmp.lt_trans, ?total⟩
  case irreflexive =>
    intro level hlt
    exact Ordering.noConfusion (level.symm.trans hlt)
  case total =>
    cases hab : compare a b with
    | lt => exact .inl rfl
    | eq => exact .inr (.inl rfl)
    | gt => exact .inr (.inr (Std.OrientedCmp.lt_of_gt hab))

end Key

namespace Projection

variable {shape : Shape} {positions : List Nat} {comparison : Comparison} {π : Projection}

/-- What a projection finds out about two entries, the one a probe, and about their keys. -/
structure Comparisons (π : Projection) (a b : Entry) (x y : Key) (meets same wild : Bool) : Prop where
  project_left : π.project a = .ok x
  project_right : π.project b = .ok y
  agrees_entries : π.agrees a b = .ok meets
  sameKey_entries : π.sameKey a b = .ok same
  changed_entries : π.changed a b = .ok (!same)
  isPartial_entry : π.isPartial a = .ok wild
  /-- Keys list the fields in the order of the projection. -/
  fields : x = π.positions.map a.field ∧ y = π.positions.map b.field
  agrees_keys : meets = true ↔ x.agrees y = true
  level_keys : meets = true ↔ x.compareSet y = .eq
  wild_key : wild = true ↔ x.isPartial = true
  lead_key : wild = true ↔ x.leadLength < π.width
  equal_keys : same = true ↔ x.Equal y
  /-- Without wildcards there is one equality and one order. -/
  full_keys : x.isPartial = false → y.isPartial = false →
    meets = same ∧ x.compareSet y = List.compareLex Value.compare x y

theorem exists_comparisons (hin : π.Inside shape) {a b : Entry} (ha : a.Conforms shape)
    (hb : b.Conforms shape) :
    ∃ x y meets same wild, π.Comparisons a b x y meets same wild := by
  have hfa := hin.fits ha
  have hfb := hin.fits hb
  have hlength : (π.keyOf a).length = (π.keyOf b).length := by rw [length_keyOf, length_keyOf]
  refine ⟨π.keyOf a, π.keyOf b, _, _, _, {
    project_left := project_eq hfa
    project_right := project_eq hfb
    agrees_entries := agrees_eq hfa hfb
    sameKey_entries := sameKey_eq hfa hfb
    changed_entries := changed_eq hfa hfb
    isPartial_entry := isPartial_eq hfa
    fields := ⟨π.keyOf_eq_map_field a, π.keyOf_eq_map_field b⟩
    agrees_keys := Iff.rfl
    level_keys := Key.compareSet_eq_eq_iff.symm
    wild_key := Iff.rfl
    lead_key := ?lead
    equal_keys := (Key.same_eq_true_iff hlength).trans Key.compare_eq_iff_equal
    full_keys := fun hx hy => ⟨Key.agrees_eq_same hx hy, Key.compareSet_eq hlength hx hy⟩ }⟩
  case lead => rw [Key.isPartial_iff_leadLength, length_keyOf]

/-- What a projection answers on entries is what it answers on their keys. Fully set keys are in a
strict total order, and all keys compare alike in both directions. -/
theorem comparisons_coincide (hπ : onPositions shape positions comparison = .ok π) :
    (∀ a b : Entry, a.Conforms shape → b.Conforms shape →
      ∃ x y meets same wild, π.Comparisons a b x y meets same wild) ∧
    (∀ x y z : Key, x.Full π.width → y.Full π.width → z.Full π.width →
      (x.Equal y → x.compareSet y ≠ .lt) ∧
      (x.compareSet y = .lt → y.compareSet z = .lt → x.compareSet z = .lt) ∧
      (x.compareSet y = .lt ∨ x.Equal y ∨ y.compareSet x = .lt)) ∧
    ∀ x y : Key, x.compareSet y = (y.compareSet x).swap :=
  ⟨fun _ _ ha hb => exists_comparisons (onPositions_spec hπ).1 ha hb,
    fun _ _ _ hx hy hz => hx.strict_total hy hz, Key.compareSet_eq_swap⟩

/-- A field with a sentinel meets a zero of either sign but equals none; the two zeros are equal, so
that the next field decides. -/
theorem comparisons_coincide_of_zeros :
    let entry (n : Int32) (v : Value) : Entry := ⟨⟨[.int, .double]⟩, [.int n, v]⟩
    let key (bits : UInt64) (n : Int32) : Key := [.double ⟨bits⟩, .int n]
    ∃ π, onPositions ⟨[.int, .double]⟩ [2, 1] .ordering = .ok π ∧
      (∃ x y, π.Comparisons (entry 3 (.unset .double)) (entry 3 (.double ⟨0⟩)) x y true false true) ∧
      (∃ x y, π.Comparisons (entry 3 (.double ⟨0x8000000000000000⟩)) (entry 3 (.double ⟨0⟩)) x y
        true true false) ∧
      (key 0 3).compareSet (key 0x8000000000000000 5) = .lt ∧
      (key 0 3).compareSet (key 0x3ff0000000000000 1) = .lt ∧
      (key 0x3ff0000000000000 1).compareSet (key 0 3) = .gt := by
  intro entry key
  have hπ : onPositions ⟨[.int, .double]⟩ [2, 1] .ordering = .ok _ := rfl
  obtain ⟨hentries, hkeys, hswap⟩ := comparisons_coincide hπ
  have hlt : (key 0 3).compareSet (key 0x8000000000000000 5) = .lt := by decide
  obtain ⟨-, htrans, -⟩ := hkeys (key 0 3) (key 0x8000000000000000 5) (key 0x3ff0000000000000 1)
    (by decide) (by decide) (by decide)
  have hbeyond := htrans hlt (by decide)
  refine ⟨_, rfl, ?_, ?_, hlt, hbeyond, by rw [hswap, hbeyond]; rfl⟩
  · obtain ⟨x, y, meets, same, wild, h⟩ := hentries (entry 3 (.unset .double))
      (entry 3 (.double ⟨0⟩)) (by decide) (by decide)
    obtain rfl : true = meets := Except.ok.inj (Eq.trans (by decide) h.agrees_entries)
    obtain rfl : false = same := Except.ok.inj (Eq.trans (by decide) h.sameKey_entries)
    obtain rfl : true = wild := Except.ok.inj (Eq.trans (by decide) h.isPartial_entry)
    exact ⟨x, y, h⟩
  · obtain ⟨x, y, meets, same, wild, h⟩ := hentries (entry 3 (.double ⟨0x8000000000000000⟩))
      (entry 3 (.double ⟨0⟩)) (by decide) (by decide)
    obtain rfl : true = meets := Except.ok.inj (Eq.trans (by decide) h.agrees_entries)
    obtain rfl : true = same := Except.ok.inj (Eq.trans (by decide) h.sameKey_entries)
    obtain rfl : false = wild := Except.ok.inj (Eq.trans (by decide) h.isPartial_entry)
    exact ⟨x, y, h⟩

end Projection
end IndexedStore
