import Mathlib.Data.List.TakeWhile
import IndexedStore.Proofs.KeyWalks

/-!
# Ranges of keys

A bound of a range compares with a key by the values that both have set. With a fully set key it
compares by the values it has at its start, so that the keys inside a range lie side by side. The
walk over a range goes from its lower bound in the order of the keys, and ends at the first key that
is not below the upper bound.
-/
namespace IndexedStore

namespace Value

theorem isUnset_of_lt {x y : Value} (ht : x.type = y.type) (hlt : x.compare y = .lt) :
    y.isUnset = false := by
  cases y with
  | unset t =>
    obtain rfl : x.type = t := ht
    exact absurd hlt (Key.compare_unset x)
  | _ => rfl

end Value

namespace Key

/-- The order of a key and a bound by the values the bound has set at its start. -/
def compareLead (key bound : Key) : Ordering :=
  compare (key.take bound.leadLength) (bound.take bound.leadLength)

def IsLead (key : Key) : Prop := ∀ v ∈ key.drop key.leadLength, v.isUnset = true

instance (key : Key) : Decidable key.IsLead :=
  inferInstanceAs (Decidable (∀ v ∈ key.drop key.leadLength, _))

variable {a b key bound : Key} {x y : Value}

theorem leadLength_cons_unset (hy : y.isUnset = true) (b : Key) :
    leadLength (y :: b) = 0 := by
  simp [leadLength, hy]

theorem leadLength_cons_set (hy : y.isUnset = false) (b : Key) :
    leadLength (y :: b) = b.leadLength + 1 := by
  simp [leadLength, hy]

theorem isLead_cons_set (hy : y.isUnset = false) : IsLead (y :: b) ↔ b.IsLead := by
  rw [IsLead, leadLength_cons_set hy, List.drop_succ_cons]
  rfl

theorem IsLead.unset (hb : IsLead (y :: b)) (hy : y.isUnset = true) :
    ∀ v ∈ y :: b, v.isUnset = true := by
  rwa [IsLead, leadLength_cons_unset hy] at hb

theorem compareLead_cons_set (hy : y.isUnset = false) :
    compareLead (x :: a) (y :: b) = (x.compare y).then (compareLead a b) := by
  rw [compareLead, leadLength_cons_set hy, List.take_succ_cons, List.take_succ_cons, compare,
    List.compareLex_cons_cons]
  rfl

theorem compareSet_cons_set (hx : x.isUnset = false) (hy : y.isUnset = false) :
    compareSet (x :: a) (y :: b) = (x.compare y).then (compareSet a b) := by
  rw [compareSet, hx, hy, Bool.or_self, if_neg Bool.false_ne_true]

theorem compareSet_unset (hb : ∀ v ∈ b, v.isUnset = true) : compareSet a b = .eq := by
  induction b generalizing a with
  | nil => cases a <;> rfl
  | cons y b ih =>
    cases a with
    | nil => rfl
    | cons x a =>
      obtain ⟨hy, hb⟩ := List.forall_mem_cons.1 hb
      rw [compareSet, hy, Bool.or_true, if_pos rfl]
      exact ih hb

/-- Up to wildcards, a fully set key is compared with a bound by the lead of the bound. -/
theorem compareSet_eq_compareLead (hl : key.length = bound.length) (hk : key.isPartial = false)
    (hb : bound.IsLead) : compareSet key bound = compareLead key bound := by
  induction bound generalizing key with
  | nil => cases key <;> rfl
  | cons y b ih =>
    cases hy : y.isUnset with
    | true =>
      rw [compareSet_unset (hb.unset hy), compareLead, leadLength_cons_unset hy]
      rfl
    | false =>
      cases key with
      | nil => simp at hl
      | cons x a =>
        obtain ⟨hx, ha⟩ : x.isUnset = false ∧ isPartial a = false := by simpa [isPartial] using hk
        have tail := ih (by simpa using hl) ha ((isLead_cons_set hy).1 hb)
        rw [compareSet_cons_set hx hy, tail, compareLead_cons_set hy]

theorem leastWithLead_eq (hb : bound.IsLead) :
    KeyRows.leastWithLead bound.leadLength bound = bound := by
  have hrest : (bound.drop bound.leadLength).map (fun v => Value.unset v.type) =
      bound.drop bound.leadLength := by
    conv_rhs => rw [← List.map_id (bound.drop bound.leadLength)]
    refine List.map_congr_left fun v hv => ?_
    have hu := hb v hv
    cases v <;> simp_all [Value.isUnset, Value.type]
  rw [KeyRows.leastWithLead, hrest, List.take_append_drop]

/-- A key sorts below a bound exactly if its lead is below. -/
theorem isLT_eq_compareLead (ht : key.map Value.type = bound.map Value.type) (hb : bound.IsLead) :
    (compare key bound).isLT = (compareLead key bound).isLT := by
  have hleast := KeyRows.compare_leastWithLead (n := bound.leadLength) ht
  rwa [leastWithLead_eq hb] at hleast

/-! ## Level keys compare alike -/

theorem compareSet_congr (h : compare a b = .eq) (c : Key) : compareSet a c = compareSet b c := by
  have hab := compare_eq_eq_iff.1 h
  clear h
  induction hab generalizing c with
  | nil => rfl
  | cons hxy _ ih =>
    cases c with
    | nil => rfl
    | cons z c => rw [compareSet, compareSet, ih, Value.isUnset_eq hxy, Std.TransCmp.congr_left hxy]

theorem compare_take (h : compare a b = .eq) (n : Nat) : compare (a.take n) (b.take n) = .eq := by
  have hab := compare_eq_eq_iff.1 h
  rw [compare_eq_eq_iff]
  exact List.forall₂_take n hab

theorem compareLead_congr (h : compare a b = .eq) (c : Key) :
    compareLead a c = compareLead b c := by
  rw [compareLead, compareLead, Std.TransCmp.congr_left (compare_take h c.leadLength)]

/-! ## Keys above a fully set key -/

/-- A key above a fully set one is not on an earlier side of a bound. -/
theorem compareSet_mono {key other bound : Key} (hk : key.isPartial = false) (hb : bound.IsLead)
    (ht : key.map Value.type = other.map Value.type) (hl : key.length = bound.length)
    (hlt : compare key other = .lt) :
    (compareSet key bound = .gt → compareSet other bound = .gt) ∧
      (compareSet key bound ≠ .lt → compareSet other bound ≠ .lt) := by
  induction bound generalizing key other with
  | nil =>
    obtain rfl : key = [] := by simpa using hl
    obtain rfl : other = [] := by simpa using ht.symm
    exact ⟨id, id⟩
  | cons y b ih =>
    cases hy : y.isUnset with
    | true =>
      have hunset := hb.unset hy
      rw [compareSet_unset hunset, compareSet_unset hunset]
      exact ⟨id, id⟩
    | false =>
      cases key with
      | nil => simp at hl
      | cons x a =>
        cases other with
        | nil => simp at ht
        | cons z c =>
          obtain ⟨hxz, ht⟩ := List.cons.inj ht
          obtain ⟨hx, ha⟩ : x.isUnset = false ∧ isPartial a = false := by simpa [isPartial] using hk
          rw [compare, List.compareLex_cons_cons, Ordering.then_eq_lt] at hlt
          rcases hlt with hcmp | ⟨hcmp, hlt⟩
          · have hz := Value.isUnset_of_lt hxz hcmp
            have hbeyond (hxy : x.compare y ≠ .lt) : z.compare y = .gt :=
              Std.OrientedCmp.gt_of_lt (Std.TransCmp.lt_of_isLE_of_lt
                (Std.OrientedCmp.isGE_iff_isLE.1 (Ordering.isGE_iff_ne_lt.2 hxy)) hcmp)
            rw [compareSet_cons_set hx hy, compareSet_cons_set hz hy]
            cases hxy : x.compare y with
            | lt => simp
            | eq | gt => simp [hbeyond (by simp [hxy])]
          · have hz := (Value.isUnset_eq hcmp).symm.trans hx
            rw [compareSet_cons_set hx hy, compareSet_cons_set hz hy, ← Std.TransCmp.congr_left hcmp]
            cases x.compare y with
            | lt => simp
            | eq => exact ih ha ((isLead_cons_set hy).1 hb) ht (by simpa using hl) hlt
            | gt => simp

end Key

/-- A key that can bound a range: a value or a sentinel of each key field, sentinels last. -/
structure Projection.Bounds (π : Projection) (shape : Shape) (bound : Key) : Prop where
  types : bound.map Value.type = (π.keyOf (.blank shape)).map Value.type
  lead : bound.IsLead

instance (π : Projection) (shape : Shape) (bound : Key) : Decidable (π.Bounds shape bound) :=
  decidable_of_iff (bound.map Value.type = (π.keyOf (.blank shape)).map Value.type ∧ bound.IsLead)
    ⟨fun h => ⟨h.1, h.2⟩, fun h => ⟨h.1, h.2⟩⟩

namespace Edge

variable {κ : Type} {f g : κ → κ → Ordering} {edge : Edge κ} {a b : κ}

theorem admitsAbove_congr (h : ∀ bound, edge.key? = some bound → f a bound = g b bound) :
    edge.admitsAbove f a = edge.admitsAbove g b := by
  cases edge with
  | unbounded => rfl
  | included bound | excluded bound => rw [admitsAbove, admitsAbove, h bound rfl]

theorem admitsBelow_congr (h : ∀ bound, edge.key? = some bound → f a bound = g b bound) :
    edge.admitsBelow f a = edge.admitsBelow g b := by
  cases edge with
  | unbounded => rfl
  | included bound | excluded bound => rw [admitsBelow, admitsBelow, h bound rfl]

@[simp] theorem key?_ofKey (key : κ) (exclusive : Bool) : (ofKey key exclusive).key? = some key := by
  cases exclusive <;> rfl

end Edge

namespace KeyRange

section Bounds

variable {κ υ : Type}

def keys : KeyRange κ → List κ
  | .all => []
  | .only key | .above key _ | .below key _ => [key]
  | .between low high _ _ => [low, high]

theorem exists_mapM {f : κ → Checked υ} {range : KeyRange κ}
    (h : ∀ key ∈ range.keys, ∃ image, f key = .ok image) : ∃ image, range.mapM f = .ok image := by
  cases range with
  | all => exact ⟨.all, rfl⟩
  | only key =>
    obtain ⟨image, hkey⟩ := h key (by simp [keys])
    exact ⟨.only image, by rw [mapM, hkey]; rfl⟩
  | above low exclusive =>
    obtain ⟨image, hlow⟩ := h low (by simp [keys])
    exact ⟨.above image exclusive, by rw [mapM, hlow]; rfl⟩
  | below high exclusive =>
    obtain ⟨image, hhigh⟩ := h high (by simp [keys])
    exact ⟨.below image exclusive, by rw [mapM, hhigh]; rfl⟩
  | between low high lowExclusive highExclusive =>
    obtain ⟨least, hlow⟩ := h low (by simp [keys])
    obtain ⟨greatest, hhigh⟩ := h high (by simp [keys])
    exact ⟨.between least greatest lowExclusive highExclusive, by rw [mapM, hlow, hhigh]; rfl⟩

end Bounds

variable (range : KeyRange Key) {row : Key × List Handle} {pre post rows : List (Key × List Handle)}
  {a b : Key}

/-- Whether a key is inside a range at its lower end: it does not sort before the bound, and lies
above it by the values both have set. -/
def enters (key : Key) : Bool :=
  (range.lower.key?.all fun low => !(Key.compare key low).isLT) &&
    range.lower.admitsAbove Key.compareSet key

def endsAt (key : Key) : Bool :=
  range.enters key && !range.upper.admitsBelow Key.compareSet key

def visit (rows : List (Key × List Handle)) : List Handle :=
  ((rows.filter fun row => range.enters row.1).takeWhile fun row =>
    range.upper.admitsBelow Key.compareSet row.1).flatMap Prod.snd

theorem visit_cons : range.visit (row :: rows) = if range.endsAt row.1 then []
    else if range.enters row.1 then row.2 ++ range.visit rows else range.visit rows := by
  rw [visit, endsAt, List.filter_cons]
  cases range.enters row.1 with
  | false => rfl
  | true =>
    rw [if_pos rfl, List.takeWhile_cons]
    cases range.upper.admitsBelow Key.compareSet row.1 <;> rfl

theorem visit_append : range.visit (pre ++ post) = range.visit pre ++
    if pre.any fun row => range.endsAt row.1 then [] else range.visit post := by
  induction pre with
  | nil => rfl
  | cons row pre ih =>
    rw [List.cons_append, visit_cons, visit_cons, ih, List.any_cons]
    cases range.endsAt row.1 with
    | true => rfl
    | false =>
      cases range.enters row.1 with
      | true => exact (List.append_assoc _ _ _).symm
      | false => rfl

/-- Where a walk goes on, it passes a row without handles. -/
theorem visit_skip {k : Key} (hends : range.endsAt k = false) :
    range.visit (pre ++ (k, []) :: post) = range.visit (pre ++ post) := by
  rw [visit_append, visit_append, visit_cons, hends, if_neg Bool.false_ne_true, List.nil_append,
    ite_self]

theorem erase_visit {k : Key} {v : List Handle} {h : Handle} (hends : range.endsAt k = false)
    (hpre : h ∉ range.visit pre) (hv : h ∉ v) (hpost : h ∉ range.visit post) :
    (range.visit (pre ++ (k, v ++ [h]) :: post)).erase h = range.visit (pre ++ (k, v) :: post) := by
  rw [visit_append, visit_append, visit_cons, visit_cons, hends, if_neg Bool.false_ne_true,
    if_neg Bool.false_ne_true]
  split
  next => rw [List.append_nil, List.erase_of_not_mem hpre]
  next =>
    split
    next =>
      rw [List.erase_append_right _ hpre, List.append_assoc, List.erase_append_right _ hv,
        List.singleton_append, List.erase_cons_head]
    next => rw [List.erase_of_not_mem (by simp [hpre, hpost])]

theorem mem_visit {h : Handle} (hh : h ∈ range.visit rows) :
    ∃ row ∈ rows, range.upper.admitsBelow Key.compareSet row.1 = true ∧ h ∈ row.2 := by
  obtain ⟨row, hrow, hm⟩ := List.mem_flatMap.1 hh
  have hadmits := List.mem_takeWhile_imp hrow
  exact ⟨row, List.mem_of_mem_filter ((List.takeWhile_sublist _).subset hrow), hadmits, hm⟩

theorem enters_congr (h : Key.compare a b = .eq) : range.enters a = range.enters b := by
  have hlow : ∀ low, Key.compare a low = Key.compare b low := fun low => Std.TransCmp.congr_left h
  rw [enters, enters, Edge.admitsAbove_congr fun bound _ => Key.compareSet_congr h bound]
  simp only [hlow]

theorem endsAt_congr (h : Key.compare a b = .eq) : range.endsAt a = range.endsAt b := by
  rw [endsAt, endsAt, enters_congr range h,
    Edge.admitsBelow_congr fun bound _ => Key.compareSet_congr h bound]

variable {range}

theorem mem_keys_of_lower {bound : Key} (h : range.lower.key? = some bound) :
    bound ∈ range.keys := by
  cases range <;> simp only [lower, Edge.key?_ofKey] at h <;> simp_all [keys, Edge.key?]

theorem mem_keys_of_upper {bound : Key} (h : range.upper.key? = some bound) :
    bound ∈ range.keys := by
  cases range <;> simp only [upper, Edge.key?_ofKey] at h <;> simp_all [keys, Edge.key?]

section Set

variable {key : Key} (hk : key.isPartial = false)
  (hb : ∀ bound ∈ range.keys, key.map Value.type = bound.map Value.type ∧ bound.IsLead)
include hk hb

theorem compareSet_eq_of_keys {bound : Key} (h : bound ∈ range.keys) :
    Key.compareSet key bound = Key.compareLead key bound := by
  obtain ⟨ht, hlead⟩ := hb bound h
  exact Key.compareSet_eq_compareLead (by simpa using congrArg List.length ht) hk hlead

/-- A fully set key that sorts before the lower bound is below it by its lead. -/
theorem enters_eq : range.enters key = range.lower.admitsAbove Key.compareLead key := by
  rw [enters, Edge.admitsAbove_congr fun bound h => compareSet_eq_of_keys hk hb (mem_keys_of_lower h)]
  cases hlow : range.lower with
  | unbounded => rfl
  | included low | excluded low =>
    obtain ⟨ht, hlead⟩ := hb low (mem_keys_of_lower (by rw [hlow]; rfl))
    simp only [Edge.key?, Option.all_some, Edge.admitsAbove, Key.isLT_eq_compareLead ht hlead]
    cases Key.compareLead key low <;> rfl

theorem admitsBelow_eq : range.upper.admitsBelow Key.compareSet key =
    range.upper.admitsBelow Key.compareLead key :=
  Edge.admitsBelow_congr fun _ h => compareSet_eq_of_keys hk hb (mem_keys_of_upper h)

end Set

/-- Below a key that is inside a range at its upper end all keys are. -/
theorem admitsBelow_of_lt (hl : a.length = b.length) (hlt : Key.compare a b = .lt)
    (h : range.upper.admitsBelow Key.compareLead b = true) :
    range.upper.admitsBelow Key.compareLead a = true := by
  cases hup : range.upper with
  | unbounded => rfl
  | included bound =>
    rw [hup, Edge.admitsBelow, Key.compareLead] at h
    rw [Edge.admitsBelow, Key.compareLead]
    exact Std.TransCmp.isLE_trans (KeyRows.isLE_take hl hlt) h
  | excluded bound =>
    rw [hup, Edge.admitsBelow, Ordering.isLT_iff_eq_lt, Key.compareLead] at h
    rw [Edge.admitsBelow, Ordering.isLT_iff_eq_lt, Key.compareLead]
    exact Std.TransCmp.lt_of_isLE_of_lt (KeyRows.isLE_take hl hlt) h

/-- Where a fully set key ends a walk, every key above it is outside the range. -/
theorem admitsBelow_of_endsAt (ha : a.isPartial = false)
    (hb : ∀ bound ∈ range.keys, a.map Value.type = bound.map Value.type ∧ bound.IsLead)
    (ht : a.map Value.type = b.map Value.type) (hlt : Key.compare a b = .lt)
    (hends : range.endsAt a = true) : range.upper.admitsBelow Key.compareSet b = false := by
  rw [endsAt, Bool.and_eq_true, Bool.not_eq_true'] at hends
  have hbeyond := hends.2
  cases hup : range.upper with
  | unbounded => simp [hup, Edge.admitsBelow] at hbeyond
  | included bound | excluded bound =>
    obtain ⟨hab, hlead⟩ := hb bound (mem_keys_of_upper (by rw [hup]; rfl))
    have hmono := Key.compareSet_mono ha hlead ht (by simpa using congrArg List.length hab) hlt
    rw [hup, Edge.admitsBelow] at hbeyond
    rw [Edge.admitsBelow]
    revert hbeyond hmono
    cases Key.compareSet a bound <;> cases Key.compareSet b bound <;> simp

theorem contains_congr (h : Key.compare a b = .eq) :
    range.contains Key.compareLead a = range.contains Key.compareLead b := by
  rw [contains, contains, Edge.admitsAbove_congr fun bound _ => Key.compareLead_congr h bound,
    Edge.admitsBelow_congr fun bound _ => Key.compareLead_congr h bound]

end KeyRange

end IndexedStore
