import Mathlib.Data.List.Forall2
import IndexedStore.Index.Source
import IndexedStore.Projection.Order
import IndexedStore.Proofs.Checked

/-!
# Keys of entries

A projection fits an entry if all its offsets lie inside it; then it never faults, and every
comparison of entries through it is a comparison of their keys. Keys that are level in the order
have the same hash, are partial alike and agree with the same probes.
-/
namespace IndexedStore

namespace Double

theorem rank_lt (d : Double) (h : d.isNaN = false) :
    -0x8000000000000000 < d.rank ∧ d.rank < 0x8000000000000000 := by
  have hm : d.magnitude ≤ infinity := by simpa [isNaN] using h
  simp only [infinity] at hm
  simp only [rank, h, Bool.false_eq_true, if_false]
  split <;> omega

theorem eq_or_zero_of_rank {a b : Double} (h : a.rank = b.rank) (ha : a.isNaN = false)
    (hb : b.isNaN = false) : a = b ∨ a.magnitude = 0 ∧ b.magnitude = 0 := by
  have hbits : a.magnitude = b.magnitude ∧ (a.magnitude = 0 ∨ a.isNegative = b.isNegative) := by
    simp only [rank, ha, hb, Bool.false_eq_true, if_false] at h
    cases hna : a.isNegative <;> cases hnb : b.isNegative <;> simp [hna, hnb] at h ⊢ <;> omega
  obtain ⟨hm, h0 | hs⟩ := hbits
  · exact .inr ⟨h0, hm ▸ h0⟩
  · left
    obtain ⟨a⟩ := a
    obtain ⟨b⟩ := b
    simp only [isNegative, decide_eq_decide, magnitude] at hm hs
    rw [mk.injEq, ← UInt64.toNat_inj]
    have := a.toNat_lt
    have := b.toNat_lt
    omega

theorem canonicalBits_eq_of_rank {a b : Double} (h : a.rank = b.rank) :
    a.canonicalBits = b.canonicalBits := by
  cases ha : a.isNaN <;> cases hb : b.isNaN
  · rcases eq_or_zero_of_rank h ha hb with rfl | ⟨h0, h0'⟩
    · rfl
    · simp [canonicalBits, h0, h0']
  · have := rank_lt a ha
    simp only [rank.eq_1 b, hb, if_true] at h
    omega
  · have := rank_lt b hb
    simp only [rank.eq_1 a, ha, if_true] at h
    omega
  · have hz : ∀ d : Double, d.isNaN = true → d.magnitude ≠ 0 := by
      intro d hd h0
      simp [isNaN, h0, infinity] at hd
    simp [canonicalBits, ha, hb, hz a ha, hz b hb]

end Double

namespace Value

theorem same_eq_true_iff {a b : Value} : a.same b = true ↔ compare a b = .eq := by
  simp [same]

theorem compare_eq_eq_iff {a b : Value} : compare a b = .eq ↔
    a.type = b.type ∧ a.isUnset = b.isUnset ∧ a.number = b.number ∧ a.wording = b.wording := by
  rw [← same_eq_true_iff, same_iff]

theorem hashBlock_eq {a b : Value} (h : compare a b = .eq) : a.hashBlock = b.hashBlock := by
  obtain ⟨ht, hu, hn, hw⟩ := compare_eq_eq_iff.1 h
  cases a <;> cases b <;> simp_all [type, isUnset, number, wording, hashBlock]
  case int.int a b => rw [Int32.toInt_inj.1 hn]
  case long.long a b => rw [Int64.toInt_inj.1 hn]
  case double.double a b => rw [Double.canonicalBits_eq_of_rank hn]
  case date.date a b => rw [Int64.toInt_inj.1 hn]
  case bool.bool a b => cases a <;> cases b <;> simp_all

theorem isUnset_eq {a b : Value} (h : compare a b = .eq) : a.isUnset = b.isUnset :=
  (compare_eq_eq_iff.1 h).2.1

theorem type_eq {a b : Value} (h : compare a b = .eq) : a.type = b.type :=
  (compare_eq_eq_iff.1 h).1

theorem same_congr {a b x : Value} (h : compare a b = .eq) : x.same a = x.same b := by
  simp only [same, Std.TransCmp.congr_right h]

end Value

namespace Key

theorem compare_eq_eq_iff {a b : Key} :
    compare a b = .eq ↔ List.Forall₂ (fun x y => Value.compare x y = .eq) a b := by
  induction a generalizing b with
  | nil => cases b <;> simp [compare, List.compareLex]
  | cons x a ih =>
    cases b with
    | nil => simp [compare, List.compareLex]
    | cons y b =>
      rw [List.forall₂_cons, ← ih]
      simp only [compare, List.compareLex_cons_cons, Ordering.then_eq_eq]

theorem length_eq {a b : Key} (h : compare a b = .eq) : a.length = b.length :=
  (compare_eq_eq_iff.1 h).length_eq

theorem types_eq {a b : Key} (h : compare a b = .eq) : a.map Value.type = b.map Value.type := by
  have hab := compare_eq_eq_iff.1 h
  clear h
  induction hab with
  | nil => rfl
  | cons hxy _ ih => rw [List.map_cons, List.map_cons, Value.type_eq hxy, ih]

theorem same_of_compare {a b : Key} (h : compare a b = .eq) : same a b = true := by
  have hab := compare_eq_eq_iff.1 h
  clear h
  induction hab with
  | nil => rfl
  | cons hxy _ ih =>
    simp only [same, List.zip_cons_cons, List.all_cons, Bool.and_eq_true] at ih ⊢
    exact ⟨Value.same_eq_true_iff.2 hxy, ih⟩

theorem same_eq_true_iff {a b : Key} (hl : a.length = b.length) :
    same a b = true ↔ compare a b = .eq := by
  refine ⟨fun h => ?_, same_of_compare⟩
  rw [compare_eq_eq_iff]
  induction a generalizing b with
  | nil => cases b with
    | nil => exact .nil
    | cons y b => simp at hl
  | cons x a ih =>
    cases b with
    | nil => simp at hl
    | cons y b =>
      simp only [same, List.zip_cons_cons, List.all_cons, Bool.and_eq_true] at h
      exact .cons (Value.same_eq_true_iff.1 h.1) (ih (by simpa using hl) h.2)

theorem hash_eq {a b : Key} (h : compare a b = .eq) : hash a = hash b := by
  have hab := compare_eq_eq_iff.1 h
  have hb : a.map Value.hashBlock = b.map Value.hashBlock := by
    clear h
    induction hab with
    | nil => rfl
    | cons hxy _ ih => simp [Value.hashBlock_eq hxy, ih]
  simp only [hash, hb, length_eq h]

theorem isPartial_eq {a b : Key} (h : compare a b = .eq) : isPartial a = isPartial b := by
  have hab := compare_eq_eq_iff.1 h
  clear h
  induction hab with
  | nil => rfl
  | cons hxy _ ih =>
    simp only [isPartial, List.any_cons] at ih ⊢
    rw [Value.isUnset_eq hxy, ih]

theorem agrees_eq {a b : Key} (h : compare a b = .eq) (probe : Key) :
    agrees probe a = agrees probe b := by
  have hab := compare_eq_eq_iff.1 h
  clear h
  induction hab generalizing probe with
  | nil => rfl
  | cons hxy _ ih =>
    cases probe with
    | nil => rfl
    | cons p probe =>
      simp only [agrees, List.zip_cons_cons, List.all_cons] at ih ⊢
      rw [Value.isUnset_eq hxy, Value.same_congr hxy, ih]

/-- Between keys without a wildcard, to agree is to be the same. -/
theorem agrees_eq_same {a b : Key} (ha : isPartial a = false) (hb : isPartial b = false) :
    agrees a b = same a b := by
  induction a generalizing b with
  | nil => rfl
  | cons x a ih =>
    cases b with
    | nil => rfl
    | cons y b =>
      simp only [isPartial, List.any_cons, Bool.or_eq_false_iff] at ha hb
      simp only [agrees, same, List.zip_cons_cons, List.all_cons, ha.1, hb.1,
        Bool.false_or] at ih ⊢
      rw [ih ha.2 hb.2]

/-- Whether a stored key is one that a probed key looks for: a probe without a wildcard looks for
exactly its own key, any other for all that agree with it. -/
def selects (probe key : Key) : Bool :=
  if probe.isPartial then probe.agrees key else (compare probe key).isEq

theorem selects_congr {a b : Key} (h : compare a b = .eq) (probe : Key) :
    probe.selects a = probe.selects b := by
  rw [selects, selects, agrees_eq h, Std.TransCmp.congr_right h]

theorem selects_eq_agrees {probe key : Key} (hl : probe.length = key.length)
    (h : probe.isPartial = true ∨ key.isPartial = false) :
    probe.selects key = probe.agrees key := by
  rw [selects]
  split
  next => rfl
  next hp =>
    have hprobe : probe.isPartial = false := eq_false_of_ne_true hp
    rw [agrees_eq_same hprobe (h.resolve_left hp), Bool.eq_iff_iff, same_eq_true_iff hl,
      Ordering.isEq_iff_eq_eq]

theorem selects_of_unset {probe key : Key} (hu : ∀ v ∈ probe, v.isUnset = true)
    (hl : probe.length = key.length) : probe.selects key = true := by
  cases probe with
  | nil =>
    obtain rfl := List.eq_nil_of_length_eq_zero hl.symm
    rfl
  | cons v rest =>
    have hpartial : isPartial (v :: rest) = true := by simp [isPartial, hu v List.mem_cons_self]
    rw [selects, if_pos hpartial, agrees, List.all_eq_true]
    intro pair hp
    simp [hu pair.1 (List.of_mem_zip hp).1]

theorem agrees_of_same {a b : Key} (h : same a b = true) : agrees a b = true := by
  simp only [same, agrees, List.all_eq_true] at h ⊢
  intro pair hp
  simp [h pair hp]

end Key

namespace Entry

/-- The values of an entry have the types of its shape, position by position. -/
def Typed (e : Entry) : Prop := e.values.map Value.type = e.shape.fields

instance (e : Entry) : Decidable e.Typed :=
  inferInstanceAs (Decidable (e.values.map Value.type = e.shape.fields))

/-- An entry of a shape, with values of the right types. -/
structure Conforms (e : Entry) (shape : Shape) : Prop where
  typed : e.Typed
  shape_eq : e.shape = shape

instance (e : Entry) (shape : Shape) : Decidable (e.Conforms shape) :=
  decidable_of_iff (e.Typed ∧ e.shape = shape) ⟨fun h => ⟨h.1, h.2⟩, fun h => ⟨h.1, h.2⟩⟩

/-- The value at an offset; past the end, a sentinel. -/
def valueAt (e : Entry) (o : Nat) : Value := e.values.getD o (.unset .int)

theorem Typed.length {e : Entry} (h : e.Typed) : e.values.length = e.shape.arity := by
  simpa [Shape.arity] using congrArg List.length h

theorem Conforms.length {e : Entry} {shape : Shape} (h : e.Conforms shape) :
    e.values.length = shape.arity := by
  rw [h.typed.length, h.shape_eq]

theorem Conforms.type_valueAt {a b : Entry} {shape : Shape} (ha : a.Conforms shape)
    (hb : b.Conforms shape) (o : Nat) : (a.valueAt o).type = (b.valueAt o).type := by
  have htypes : a.values.map Value.type = b.values.map Value.type := by
    rw [ha.typed, hb.typed, ha.shape_eq, hb.shape_eq]
  have ho := congrArg (·[o]?) htypes
  simp only [List.getElem?_map] at ho
  simp only [valueAt, List.getD_eq_getElem?_getD]
  cases hx : a.values[o]? <;> cases hy : b.values[o]? <;> simp_all

theorem conforms_blank (shape : Shape) : (blank shape).Conforms shape :=
  ⟨by simp [Typed, blank, Function.comp_def, Value.type], rfl⟩

theorem isUnset_valueAt_blank {shape : Shape} {o : Nat} :
    ((blank shape).valueAt o).isUnset = true := by
  rw [valueAt, blank, List.getD_eq_getElem?_getD, List.getElem?_map]
  cases shape.fields[o]? <;> rfl

theorem itemAt_values {e : Entry} {o : Nat} (h : o < e.values.length) :
    itemAt e.values o = .ok (e.valueAt o) :=
  Checked.itemAt_eq (by simp [valueAt, h])

theorem get_eq {e : Entry} {o : Nat} (h : o < e.values.length) :
    e.get (o + 1) = .ok (e.valueAt o) := by
  have : ¬ e.values.length < o + 1 := by omega
  simp [get, offset?, arity, this, demand, itemAt_values h]

end Entry

def Source.Conforms (source : Source) (shape : Shape) : Prop :=
  ∀ ⦃h e⦄, source h = some e → e.Conforms shape

namespace Projection

def Fits (π : Projection) (e : Entry) : Prop := ∀ o ∈ π.offsets, o < e.values.length

def Inside (π : Projection) (shape : Shape) : Prop := ∀ o ∈ π.offsets, o < shape.arity

/-- The values of an entry at the offsets of a projection. -/
def keyOf (π : Projection) (e : Entry) : Key := π.offsets.map e.valueAt

theorem Inside.fits {π : Projection} {shape : Shape} {e : Entry} (h : π.Inside shape)
    (he : e.Conforms shape) : π.Fits e := by
  intro o ho
  rw [he.length]
  exact h o ho

variable {π : Projection} {a b e : Entry}

@[simp] theorem length_keyOf : (π.keyOf e).length = π.width := by simp [keyOf, width]

theorem types_keyOf {shape : Shape} (ha : a.Conforms shape) (hb : b.Conforms shape) :
    (π.keyOf a).map Value.type = (π.keyOf b).map Value.type := by
  simp [keyOf, ha.type_valueAt hb]

theorem compare_keyOf_iff : Key.compare (π.keyOf a) (π.keyOf b) = .eq ↔
    ∀ o ∈ π.offsets, Value.compare (a.valueAt o) (b.valueAt o) = .eq := by
  rw [Key.compare_eq_eq_iff, keyOf, keyOf, List.forall₂_map_left_iff, List.forall₂_map_right_iff,
    List.forall₂_same]

theorem same_keyOf_iff :
    Key.same (π.keyOf a) (π.keyOf b) = true ↔ Key.compare (π.keyOf a) (π.keyOf b) = .eq :=
  Key.same_eq_true_iff (by simp)

theorem isPartial_keyOf : (π.keyOf e).isPartial = π.offsets.any fun o => (e.valueAt o).isUnset := by
  simp [Key.isPartial, keyOf, Function.comp_def]

theorem agrees_keyOf : (π.keyOf a).agrees (π.keyOf b) = π.offsets.all fun o =>
    (a.valueAt o).isUnset || (b.valueAt o).isUnset || (a.valueAt o).same (b.valueAt o) := by
  simp [Key.agrees, keyOf, List.zip_map', Function.comp_def]

theorem same_keyOf : Key.same (π.keyOf a) (π.keyOf b) =
    π.offsets.all fun o => (a.valueAt o).same (b.valueAt o) := by
  simp [Key.same, keyOf, List.zip_map', Function.comp_def]

theorem project_eq (h : π.Fits e) : π.project e = .ok (π.keyOf e) :=
  Checked.mapM_eq_map fun o ho => Entry.itemAt_values (h o ho)

theorem hash_eq (h : π.Fits e) : π.hash e = .ok (π.keyOf e).hash := by
  simp [hash, project_eq h]

theorem isPartial_eq (h : π.Fits e) : π.isPartial e = .ok (π.keyOf e).isPartial := by
  rw [isPartial_keyOf]
  exact Checked.anyM_eq_any fun o ho => by simp [Entry.itemAt_values (h o ho)]

theorem agrees_eq (ha : π.Fits a) (hb : π.Fits b) :
    π.agrees a b = .ok ((π.keyOf a).agrees (π.keyOf b)) := by
  rw [agrees_keyOf]
  refine Checked.allM_eq_all fun o ho => ?_
  simp only [Entry.itemAt_values (ha o ho), Entry.itemAt_values (hb o ho), Checked.ok_bind,
    Checked.pure_eq_ok]
  cases (a.valueAt o).isUnset <;> simp

theorem sameKey_eq (ha : π.Fits a) (hb : π.Fits b) :
    π.sameKey a b = .ok (Key.same (π.keyOf a) (π.keyOf b)) := by
  rw [same_keyOf]
  exact Checked.allM_eq_all fun o ho => by
    simp [Entry.itemAt_values (ha o ho), Entry.itemAt_values (hb o ho)]

theorem changed_eq (ha : π.Fits a) (hb : π.Fits b) :
    π.changed a b = .ok (!Key.same (π.keyOf a) (π.keyOf b)) := by
  rw [same_keyOf, List.not_all_eq_any_not]
  exact Checked.anyM_eq_any fun o ho => by
    simp [Entry.itemAt_values (ha o ho), Entry.itemAt_values (hb o ho)]

/-- Whether a handle leads to an entry whose key agrees with a probed one. -/
def meets (π : Projection) (source : Source) (probe : Entry) (h : Handle) : Bool :=
  (source h).any fun e => (π.keyOf probe).agrees (π.keyOf e)

theorem reaches_eq {source : Source} {h : Handle} (ha : π.Fits a)
    (hs : ∀ e, source h = some e → π.Fits e) :
    π.reaches source a h = .ok (π.meets source a h) := by
  cases he : source h with
  | none => simp [reaches, meets, he]
  | some e => simp [reaches, meets, he, agrees_eq ha (hs e he)]

theorem clashes_eq {source : Source} {h : Handle} (ha : π.Fits a)
    (hs : ∀ e, source h = some e → π.Fits e) : π.clashes source a h =
      .ok ((source h).any fun e => Key.same (π.keyOf a) (π.keyOf e)) := by
  cases he : source h with
  | none => simp [clashes, he]
  | some e => simp [clashes, he, sameKey_eq ha (hs e he)]

end Projection
end IndexedStore
