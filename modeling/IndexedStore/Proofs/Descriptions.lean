import IndexedStore.Proofs.IndexChanges
import IndexedStore.Store.Basic

/-!
# Described indices

A descriptor that passes its checks gives an empty index that can read the entries of the shape. A
declared index stands for a shape if it is what its descriptor builds, with contents: it has the
kind, the uniqueness and the key positions of the descriptor.
-/
namespace IndexedStore

namespace Projection

variable {shape : Shape} {π : Projection} {outOfRange repeated : Nat → DescriptorError}

/-- Positions pass the check exactly if they lie inside the shape and none is met twice. -/
theorem checkPositions_eq_ok_iff {seen positions : List Nat} :
    checkPositions shape outOfRange repeated seen positions = .ok () ↔
      (∀ p ∈ positions, 0 < p ∧ p ≤ shape.arity) ∧ positions.Nodup ∧ ∀ p ∈ positions, p ∉ seen := by
  induction positions generalizing seen with
  | nil => simp [checkPositions]
  | cons p rest ih =>
    rw [checkPositions, List.forall_mem_cons, List.forall_mem_cons, List.nodup_cons]
    split
    next hout => exact iff_of_false (by rintro ⟨⟩) fun h => by omega
    next hin =>
      split
      next hseen => exact iff_of_false (by rintro ⟨⟩) fun h => h.2.2.1 hseen
      next hnew =>
        have hp : 0 < p ∧ p ≤ shape.arity := by omega
        have hmem : (∀ q ∈ rest, q ∉ p :: seen) ↔ p ∉ rest ∧ ∀ q ∈ rest, q ∉ seen := by
          simp only [List.mem_cons, not_or, forall_and]
          exact and_congr_left' ⟨fun h hp => h p hp rfl, fun h q hq he => h (he ▸ hq)⟩
        rw [ih, hmem]
        tauto

theorem onPositions_spec {positions : List Nat} {comparison : Comparison}
    (h : onPositions shape positions comparison = .ok π) : π.Inside shape ∧
      π.offsets = (if positions.isEmpty then shape.positions else positions).map (· - 1) := by
  rw [onPositions] at h
  obtain ⟨⟨⟩, hcheck, hπ⟩ := Checked.bind_eq_ok.1 h
  obtain rfl := Except.ok.inj hπ
  refine ⟨fun o ho => ?_, rfl⟩
  obtain ⟨p, hp, rfl⟩ := List.mem_map.1 ho
  obtain ⟨hpos, hle⟩ := (checkPositions_eq_ok_iff.1 hcheck).1 p hp
  omega

theorem exists_onPositions {positions : List Nat} (comparison : Comparison)
    (hin : ∀ p ∈ positions, 0 < p ∧ p ≤ shape.arity) (hnodup : positions.Nodup) :
    ∃ π, onPositions shape positions comparison = .ok π := by
  have hall : (∀ p ∈ shape.positions, 0 < p ∧ p ≤ shape.arity) ∧ shape.positions.Nodup := by
    refine ⟨fun p hp => ?_, List.nodup_range.map fun a b h => Nat.add_right_cancel h⟩
    obtain ⟨o, ho, rfl⟩ := List.mem_map.1 hp
    have := List.mem_range.1 ho
    omega
  rw [onPositions]
  split
  · rw [checkPositions_eq_ok_iff.2 ⟨hall.1, hall.2, by simp⟩]
    exact ⟨_, rfl⟩
  · rw [checkPositions_eq_ok_iff.2 ⟨hin, hnodup, by simp⟩]
    exact ⟨_, rfl⟩

end Projection

/-- The key positions of a descriptor lie inside a shape, a heap has some, and axes have values on
each of them and address a number of slots within the limit. -/
structure Descriptor.Fitting (shape : Shape) (d : Descriptor) : Prop where
  inside : ∀ p ∈ d.fields, 0 < p ∧ p ≤ shape.arity
  grouped : d.kind.isHeap = true → d.fields ≠ []
  spanned : ∀ axis ∈ d.axes, axis.low < axis.high
  counted : (Axis.slotCount? d.axes).isSome

namespace Descriptor

variable {shape : Shape} {slot : Nat}

theorem spanned_of_checkAxes {axes : List Axis} (h : checkAxes shape slot axes = .ok ()) :
    ∀ axis ∈ axes, axis.low < axis.high := by
  induction axes with
  | nil => simp
  | cons axis rest ih =>
    rw [checkAxes] at h
    split at h
    · cases h
    next hspan =>
      have hrest : checkAxes shape slot rest = .ok () := by
        split at h
        · split at h
          · exact h
          · cases h
        · exact h
      exact List.forall_mem_cons.2 ⟨Int64.not_le.1 hspan, ih hrest⟩

/-- A descriptor passes its checks if its key positions do, and what is particular to its form. -/
theorem validate_eq_ok_iff {d : Descriptor} {earlier : List Descriptor} :
    d.validate shape slot earlier = .ok () ↔ (∀ p ∈ d.fields, 0 < p ∧ p ≤ shape.arity) ∧
      d.fields.Nodup ∧ d.checkForm shape slot earlier = .ok () := by
  have hform : (d.checkForm shape slot earlier).mapError Error.invalidDescriptor = .ok () ↔
      d.checkForm shape slot earlier = .ok () := by
    cases d.checkForm shape slot earlier <;> simp [Except.mapError]
  rw [validate, Checked.bind_eq_ok, hform, ← and_assoc]
  constructor
  · rintro ⟨⟨⟩, hpositions, h⟩
    obtain ⟨hin, hnodup, _⟩ := Projection.checkPositions_eq_ok_iff.1 hpositions
    exact ⟨⟨hin, hnodup⟩, h⟩
  · rintro ⟨⟨hin, hnodup⟩, h⟩
    exact ⟨(), Projection.checkPositions_eq_ok_iff.2 ⟨hin, hnodup, by simp⟩, h⟩

theorem checkForm_heap_iff {order : Direction} {group : List Nat} {target : Nat}
    {partition : Option Nat} {earlier : List Descriptor} :
    checkForm ⟨.heap order group target, partition⟩ shape slot earlier = .ok () ↔
      group ≠ [] ∧ (0 < target ∧ target ≤ shape.arity) ∧ target ∉ group ∧ slot ≠ 0 ∧
        checkPartition group slot earlier partition = .ok () := by
  rw [checkForm]
  dsimp only
  split
  next hgroup => exact iff_of_false (by rintro ⟨⟩) fun h => h.1 (by simpa using hgroup)
  next hgroup =>
    split
    next hout => exact iff_of_false (by rintro ⟨⟩) fun h => by omega
    next hin =>
      split
      next hmem => exact iff_of_false (by rintro ⟨⟩) fun h => h.2.2.1 hmem
      next hapart =>
        split
        next hzero => exact iff_of_false (by rintro ⟨⟩) fun h => h.2.2.2.1 hzero
        next hslot =>
          have hne : group ≠ [] := by simpa using hgroup
          have htarget : 0 < target ∧ target ≤ shape.arity := by omega
          simp [hne, htarget, hapart, hslot]

theorem exists_ofDescriptor {d : Descriptor} {earlier : List Descriptor}
    (hv : d.validate shape slot earlier = .ok ()) :
    ∃ index, Index.ofDescriptor d shape = .ok index := by
  obtain ⟨hin, hnodup, _⟩ := validate_eq_ok_iff.1 hv
  obtain ⟨π, hπ⟩ := Projection.exists_onPositions d.kind.comparison hin hnodup
  rw [Index.ofDescriptor, hπ]
  exact ⟨_, rfl⟩

theorem axes_of_checkForm {d : Descriptor} {earlier : List Descriptor}
    (h : d.checkForm shape slot earlier = .ok ()) :
    (∀ axis ∈ d.axes, axis.low < axis.high) ∧ (Axis.slotCount? d.axes).isSome := by
  rw [checkForm] at h
  rw [axes]
  cases hform : d.form with
  | array axes =>
    rw [hform] at h
    dsimp only at h ⊢
    split at h
    · cases h
    · obtain ⟨⟨⟩, hspans, hcount⟩ := Checked.bind_eq_ok.1 h
      refine ⟨spanned_of_checkAxes hspans, ?_⟩
      split at hcount
      · cases hcount
      next hsome => simpa [Option.isSome_iff_ne_none] using hsome
  | list | hash | tree | heap => exact ⟨by simp, rfl⟩

end Descriptor

namespace Declared

variable {shape : Shape} {d : Declared} {e : Entry} {descriptor : Descriptor} {index : Index}

/-- A declared index is one that its descriptor builds for a shape, with contents. -/
structure Stands (shape : Shape) (d : Declared) : Prop where
  reads : d.index.Reads shape
  built : Index.ofDescriptor d.descriptor shape = .ok d.index.blank
  fields : d.descriptor.Fitting shape

theorem Stands.congr {d' : Declared} (hd : d.Stands shape) (hdesc : d'.descriptor = d.descriptor)
    (hb : d'.index.blank = d.index.blank) : d'.Stands shape := by
  refine ⟨hd.reads.congr hb, ?_, hdesc ▸ hd.fields⟩
  rw [hdesc, hb]
  exact hd.built

theorem Stands.with_index {j : Index} (hd : d.Stands shape) (hb : j.blank = d.index.blank) :
    { d with index := j }.Stands shape :=
  hd.congr rfl hb

theorem Stands.describes (hd : d.Stands shape) : d.index.kind = d.descriptor.kind ∧
    d.index.isUnique = d.descriptor.isUnique ∧
    d.index.projection.offsets = (if d.descriptor.fields.isEmpty then shape.positions
      else d.descriptor.fields).map (· - 1) := by
  have hbuilt := hd.built
  rw [Index.ofDescriptor] at hbuilt
  obtain ⟨π, hπ, hindex⟩ := Checked.bind_eq_ok.1 hbuilt
  obtain ⟨_, hoffsets⟩ := Projection.onPositions_spec hπ
  rw [Checked.pure_eq_ok, Except.ok.injEq] at hindex
  rw [← Index.kind_blank, ← Index.isUnique_blank, ← Index.projection_blank, ← hindex,
    Descriptor.kind, Descriptor.isUnique, ← hoffsets]
  cases d.descriptor.form <;> exact ⟨rfl, rfl, rfl⟩

theorem Stands.reportedKey_eq (hd : d.Stands shape) (he : e.Conforms shape) :
    d.reportedKey e = .ok (d.index.projection.keyOf e) := by
  obtain ⟨_, _, hoffsets⟩ := hd.describes
  rw [reportedKey, Projection.keyOf, hoffsets]
  by_cases hempty : d.descriptor.fields.isEmpty = true
  · rw [if_pos hempty, if_pos hempty, Checked.pure_eq_ok, Except.ok.injEq]
    have hlength := he.length
    refine List.ext_getElem (by simp [Shape.positions, hlength]) fun o ho _ => ?_
    simp [Shape.positions, Entry.valueAt, ho]
  · rw [if_neg hempty, if_neg hempty, List.map_map]
    refine Checked.mapM_eq_map fun p hp => ?_
    obtain ⟨hpos, hle⟩ := hd.fields.inside p hp
    have hlt : p - 1 < e.values.length := by
      rw [he.length]
      omega
    have hget := Entry.get_eq hlt
    rwa [Nat.sub_add_cancel hpos] at hget

theorem Stands.exists_error (hd : d.Stands shape) (he : e.Conforms shape) (slot : Nat)
    (why : Rejection) : ∃ err, d.error slot e why = .ok err := by
  rw [error, hd.reportedKey_eq he]
  exact ⟨_, rfl⟩

theorem stands_of_validate {slot : Nat} {earlier : List Descriptor}
    (hv : descriptor.validate shape slot earlier = .ok ())
    (hb : Index.ofDescriptor descriptor shape = .ok index) :
    (Declared.mk descriptor index).Stands shape ∧ index.blank = index := by
  obtain ⟨hfields, _, hform⟩ := Descriptor.validate_eq_ok_iff.1 hv
  have hbuilt := hb
  rw [Index.ofDescriptor] at hb
  obtain ⟨π, hπ, hindex⟩ := Checked.bind_eq_ok.1 hb
  obtain ⟨hinside, hoffsets⟩ := Projection.onPositions_spec hπ
  rw [Checked.pure_eq_ok, Except.ok.injEq] at hindex
  obtain ⟨hspanned, hcounted⟩ := Descriptor.axes_of_checkForm hform
  have hflat (hk : descriptor.kind.isHeap = false) : descriptor.Fitting shape :=
    ⟨hfields, fun hheap => (by rw [hk] at hheap; cases hheap), hspanned, hcounted⟩
  rw [Descriptor.kind] at hflat
  rw [Descriptor.fields] at hoffsets
  cases hd : descriptor.form with
  | list fields =>
    rw [hd] at hindex hflat
    subst hindex
    exact ⟨⟨⟨hinside, trivial⟩, hbuilt, hflat rfl⟩, rfl⟩
  | hash fields unique =>
    rw [hd] at hindex hflat
    subst hindex
    exact ⟨⟨⟨hinside, trivial⟩, hbuilt, hflat rfl⟩, rfl⟩
  | tree fields unique =>
    rw [hd] at hindex hflat
    subst hindex
    exact ⟨⟨⟨hinside, trivial⟩, hbuilt, hflat rfl⟩, rfl⟩
  | array axes =>
    rw [Descriptor.checkForm] at hform
    rw [hd] at hindex hform hoffsets hflat
    subst hindex
    have hlength : axes.length = π.width := by
      cases axes with
      | nil => cases hform
      | cons axis axes => simp [Projection.width, hoffsets]
    exact ⟨⟨⟨hinside, hlength⟩, hbuilt, hflat rfl⟩, rfl⟩
  | heap order group target =>
    rw [hd] at hindex
    subst hindex
    obtain ⟨form, partition⟩ := descriptor
    obtain rfl : form = .heap order group target := hd
    obtain ⟨hgroup, htarget, _⟩ := Descriptor.checkForm_heap_iff.1 hform
    exact ⟨⟨⟨hinside, htarget⟩, hbuilt, hfields, fun _ => hgroup, hspanned, hcounted⟩, rfl⟩

theorem sound_of_blank {source : Source} (hb : index.blank = index) (hs : ∀ h, source h = none) :
    index.Sound source :=
  Index.sound_of_empty (hb ▸ Index.blank_filed) (hb ▸ Index.handles_blank) hs

end Declared
end IndexedStore
