import IndexedStore.Index.AddressGrid
import IndexedStore.Proofs.Keys
import IndexedStore.Proofs.Tables

/-!
# What address grids hold

The address of an entry is a function of its key, and level keys have one address. It is computed in
64 bits without overflow, and is that of a slot. Every handle stands in the slot at the address of
its entry, so no two handles of a grid have level keys.
-/
namespace IndexedStore

namespace Axis

def Holds (axis : Axis) (v : Value) : Prop :=
  ∃ n, v.integral? = some n ∧ axis.low ≤ n ∧ n < axis.high

instance (axis : Axis) (v : Value) : Decidable (axis.Holds v) :=
  decidable_of_iff (v.integral?.any fun n => axis.low ≤ n ∧ n < axis.high)
    (by simp [Holds, Option.any_eq_true])

theorem span?_pos {axis : Axis} (h : axis.low < axis.high) {span : Nat}
    (hs : axis.span? = some span) : 0 < span := by
  rw [Int64.lt_iff_toInt_lt] at h
  simp only [span?] at hs
  split at hs
  · have hspan := Option.some.inj hs
    omega
  · cases hs

theorem exists_spans {axes : List Axis} (hspanned : ∀ axis ∈ axes, axis.low < axis.high)
    {start count : Nat} (hpos : 0 < start) (hle : start ≤ maxSlots)
    (hcount : axes.foldlM (fun slots axis => do
      let span ← axis.span?
      if slots * span ≤ maxSlots then some (slots * span) else none) start = some count) :
    ∃ spans, axes.mapM span? = some spans ∧ spans.foldl (· * ·) start = count ∧
      0 < count ∧ count ≤ maxSlots := by
  induction axes generalizing start with
  | nil =>
    obtain rfl := Option.some.inj hcount
    exact ⟨[], rfl, rfl, hpos, hle⟩
  | cons axis axes ih =>
    rw [List.forall_mem_cons] at hspanned
    simp only [List.foldlM_cons, Option.bind_eq_bind, Option.bind_eq_some_iff] at hcount
    obtain ⟨next, ⟨span, hspan, hnext⟩, hcount⟩ := hcount
    split at hnext
    next hlimit =>
      obtain rfl := Option.some.inj hnext
      have hspanpos := span?_pos hspanned.1 hspan
      obtain ⟨spans, hspans, hproduct⟩ :=
        ih hspanned.2 (Nat.mul_pos hpos hspanpos) hlimit hcount
      exact ⟨span :: spans, by simp [hspan, hspans], hproduct⟩
    · cases hnext

end Axis

namespace AddressGrid

variable {g : AddressGrid} {source after : Source} {h : Handle} {e : Entry} {address : Nat}

def step (address : Nat) (axis : Axis) (v : Value) : Option Nat := do
  let n ← v.integral?
  if axis.low ≤ n ∧ n < axis.high then
    some (address * (axis.high.toInt - axis.low.toInt).toNat + (n.toInt - axis.low.toInt).toNat)
  else none

def stepAll (address : Nat) : List (Value × Axis) → Option Nat
  | [] => some address
  | (v, axis) :: rest => (step address axis v).bind (stepAll · rest)

/-- The address of a key; none if it is not inside the bounds. -/
def addressOf (g : AddressGrid) (key : Key) : Option Nat :=
  if g.capacity = 0 then none else stepAll 0 (key.zip g.axes)

theorem integral?_eq {a b : Value} (h : Value.compare a b = .eq) : a.integral? = b.integral? := by
  obtain ⟨ht, hu, hn, -⟩ := Value.compare_eq_eq_iff.1 h
  cases a <;> cases b <;> simp_all [Value.type, Value.isUnset, Value.number, Value.integral?]
  case long.long a b => exact Int64.toInt_inj.1 hn
  case date.date a b => exact Int64.toInt_inj.1 hn

theorem stepAll_congr {a b : Key} (h : a.map Value.integral? = b.map Value.integral?)
    (axes : List Axis) (address : Nat) :
    stepAll address (a.zip axes) = stepAll address (b.zip axes) := by
  induction a generalizing b axes address with
  | nil =>
    obtain rfl : b = [] := by simpa using h.symm
    rfl
  | cons v a ih =>
    cases b with
    | nil => simp at h
    | cons w b =>
      obtain ⟨hvw, hab⟩ := List.cons.inj h
      cases axes with
      | nil => rfl
      | cons axis axes => simp only [List.zip_cons_cons, stepAll, step, hvw, ih hab]

/-- Level keys have one address. -/
theorem addressOf_congr {a b : Key} (h : Key.compare a b = .eq) : g.addressOf a = g.addressOf b := by
  have hintegers : b.map Value.integral? = a.map Value.integral? :=
    Checked.map_eq_of_forall₂ (Key.compare_eq_eq_iff.1 h) fun _ _ level => (integral?_eq level).symm
  rw [addressOf, addressOf, stepAll_congr hintegers.symm]

theorem addressOf_of_axes {other : AddressGrid} (h : other.axes = g.axes) (key : Key) :
    other.addressOf key = g.addressOf key := by
  have hcapacity : other.capacity = g.capacity := by
    rw [capacity, h]
    rfl
  rw [addressOf, addressOf, hcapacity, h]

/-! ## The order of addresses -/

section Order

variable {axis : Axis} {axes : List Axis} {a b : Key} {v w : Value} {first second : Nat}

theorem step_eq_some_iff : step address axis v = some first ↔
    ∃ n, v.integral? = some n ∧ axis.low ≤ n ∧ n < axis.high ∧
      first = address * (axis.high.toInt - axis.low.toInt).toNat +
        (n.toInt - axis.low.toInt).toNat := by
  rw [step, Option.bind_eq_bind, Option.bind_eq_some_iff]
  refine exists_congr fun n => and_congr_right fun _ => ?_
  split
  next hin => simp [hin, eq_comm]
  next hout => simpa using fun hlow hhigh => absurd ⟨hlow, hhigh⟩ hout

theorem compare_of_integral? (htype : v.type = w.type) {m n : Int64} (hv : v.integral? = some m)
    (hw : w.integral? = some n) : v.compare w = Ord.compare m.toInt n.toInt := by
  cases v <;> cases w <;> simp only [Value.type, reduceCtorEq] at htype
  case int.int x y =>
    have hx : x.toInt64 = m := Option.some.inj hv
    have hy : y.toInt64 = n := Option.some.inj hw
    rw [Value.compare, ← hx, ← hy, Int32.toInt_toInt64, Int32.toInt_toInt64]
  case long.long x y | date.date x y =>
    obtain rfl := Option.some.inj hv
    obtain rfl := Option.some.inj hw
    rfl
  all_goals simp [Value.integral?] at hv hw

theorem compare_digits {base i j : Nat} (hi : i < base) (hj : j < base) (m n : Nat) :
    Ord.compare (m * base + i) (n * base + j) = (Ord.compare m n).then (Ord.compare i j) := by
  have hless {m n i j : Nat} (hi : i < base) (hmn : m < n) : m * base + i < n * base + j := by
    have hnext : (m + 1) * base ≤ n * base := Nat.mul_le_mul_right base hmn
    rw [Nat.add_mul, Nat.one_mul] at hnext
    omega
  rcases Nat.lt_trichotomy m n with hmn | rfl | hmn
  · rw [Nat.compare_eq_lt.2 (hless hi hmn), Nat.compare_eq_lt.2 hmn]
    rfl
  · rw [Std.ReflOrd.compare_self, Ordering.eq_then]
    rcases Nat.lt_trichotomy i j with hij | rfl | hij
    · rw [Nat.compare_eq_lt.2 hij, Nat.compare_eq_lt.2 (by omega)]
    · rw [Std.ReflOrd.compare_self, Std.ReflOrd.compare_self]
    · rw [Nat.compare_eq_gt.2 hij, Nat.compare_eq_gt.2 (by omega)]
  · rw [Nat.compare_eq_gt.2 (hless hj hmn), Nat.compare_eq_gt.2 hmn]
    rfl

/-- A step keeps the order of the addresses before it, and orders level ones by the values read. -/
theorem compare_step {m n : Nat} (htype : v.type = w.type) (hv : step m axis v = some first)
    (hw : step n axis w = some second) :
    Ord.compare first second = (Ord.compare m n).then (v.compare w) := by
  obtain ⟨i, hi, hilow, hihigh, rfl⟩ := step_eq_some_iff.1 hv
  obtain ⟨j, hj, hjlow, hjhigh, rfl⟩ := step_eq_some_iff.1 hw
  rw [Int64.le_iff_toInt_le] at hilow hjlow
  rw [Int64.lt_iff_toInt_lt] at hihigh hjhigh
  rw [compare_digits (by omega) (by omega), compare_of_integral? htype hi hj]
  congr 1
  rcases Int.lt_trichotomy i.toInt j.toInt with hij | hij | hij
  · rw [Std.compare_eq_lt.2 hij, Nat.compare_eq_lt.2 (by omega)]
  · rw [hij, Std.ReflOrd.compare_self, Std.ReflOrd.compare_self]
  · rw [Std.compare_eq_gt.2 hij, Nat.compare_eq_gt.2 (by omega)]

theorem compare_stepAll {m n : Nat} (hlength : a.length = axes.length)
    (htypes : a.map Value.type = b.map Value.type) (ha : stepAll m (a.zip axes) = some first)
    (hb : stepAll n (b.zip axes) = some second) :
    Ord.compare first second = (Ord.compare m n).then (a.compare b) := by
  induction axes generalizing a b m n with
  | nil =>
    obtain rfl : a = [] := by simpa using hlength
    obtain rfl : b = [] := by simpa using htypes.symm
    obtain rfl := Option.some.inj ha
    obtain rfl := Option.some.inj hb
    exact Ordering.then_eq.symm
  | cons axis axes ih =>
    cases a with
    | nil => simp at hlength
    | cons v a =>
      cases b with
      | nil => simp at htypes
      | cons w b =>
        obtain ⟨hvw, hab⟩ := List.cons.inj htypes
        obtain ⟨m', hm', ha⟩ := Option.bind_eq_some_iff.1 ha
        obtain ⟨n', hn', hb⟩ := Option.bind_eq_some_iff.1 hb
        rw [ih (by simpa using hlength) hab ha hb, compare_step hvw hm' hn', Ordering.then_assoc,
          Key.compare, List.compareLex_cons_cons]

/-- Addresses stand in the order of their keys. -/
theorem compare_addressOf (hlength : a.length = g.axes.length)
    (htypes : a.map Value.type = b.map Value.type) (ha : g.addressOf a = some first)
    (hb : g.addressOf b = some second) : Ord.compare first second = a.compare b := by
  rw [addressOf] at ha hb
  split at ha
  next => cases ha
  next hc =>
    rw [if_neg hc] at hb
    exact compare_stepAll hlength htypes ha hb

theorem compare_eq_of_addressOf (hl : a.length = g.axes.length)
    (ht : a.map Value.type = b.map Value.type) (ha : g.addressOf a = some address)
    (hb : g.addressOf b = some address) : Key.compare a b = .eq :=
  (compare_addressOf hl ht ha hb).symm.trans Std.ReflOrd.compare_self

end Order

theorem isSome_step_iff (address : Nat) {axis : Axis} {v : Value} :
    (step address axis v).isSome ↔ axis.Holds v := by
  rw [Option.isSome_iff_exists, Axis.Holds]
  constructor
  · rintro ⟨next, h⟩
    obtain ⟨n, hn, hlow, hhigh, -⟩ := step_eq_some_iff.1 h
    exact ⟨n, hn, hlow, hhigh⟩
  · rintro ⟨n, hn, hlow, hhigh⟩
    exact ⟨_, step_eq_some_iff.2 ⟨n, hn, hlow, hhigh, rfl⟩⟩

/-- Values have an address exactly if each is a number on its axis. -/
theorem isSome_stepAll_iff {pairs : List (Value × Axis)} :
    (stepAll address pairs).isSome ↔ ∀ pair ∈ pairs, pair.2.Holds pair.1 := by
  induction pairs generalizing address with
  | nil => simp [stepAll]
  | cons pair rest ih =>
    obtain ⟨v, axis⟩ := pair
    rw [stepAll, List.forall_mem_cons, ← isSome_step_iff address]
    cases step address axis v with
    | none => simp
    | some next => simp [ih]

theorem capacity_ne_zero (hspanned : ∀ axis ∈ g.axes, axis.low < axis.high)
    (hcounted : (Axis.slotCount? g.axes).isSome) : g.capacity ≠ 0 := by
  obtain ⟨count, hcount⟩ := Option.isSome_iff_exists.1 hcounted
  obtain ⟨spans, hspans, rfl, hpos, hle⟩ :=
    Axis.exists_spans hspanned Nat.one_pos (by decide) hcount
  rw [capacity, hspans]
  dsimp only
  rw [if_pos hle]
  exact Nat.ne_of_gt hpos

/-! ## Addresses in 64 bits -/

section Spans

variable {spans : List Nat} {a b : Nat}

theorem pos_of_foldl_ne_zero (h : spans.foldl (· * ·) a ≠ 0) : 0 < a ∧ ∀ span ∈ spans, 0 < span := by
  induction spans generalizing a with
  | nil => exact ⟨Nat.pos_of_ne_zero h, by simp⟩
  | cons span spans ih =>
    obtain ⟨hpos, hrest⟩ := ih h
    exact ⟨Nat.pos_of_mul_pos_right hpos, List.forall_mem_cons.2 ⟨Nat.pos_of_mul_pos_left hpos, hrest⟩⟩

theorem le_foldl (hpos : ∀ span ∈ spans, 0 < span) : a ≤ spans.foldl (· * ·) a := by
  induction spans generalizing a with
  | nil => exact Nat.le_refl a
  | cons span spans ih =>
    obtain ⟨hspan, hrest⟩ := List.forall_mem_cons.1 hpos
    exact Nat.le_trans (Nat.le_mul_of_pos_right a hspan) (ih hrest)

theorem foldl_le_foldl (h : a ≤ b) : spans.foldl (· * ·) a ≤ spans.foldl (· * ·) b := by
  induction spans generalizing a b with
  | nil => exact h
  | cons span spans ih => exact ih (Nat.mul_le_mul_right span h)

end Spans

theorem span_eq {axis : Axis} {span : Nat} (hs : axis.span? = some span) :
    axis.high.toInt - axis.low.toInt = span ∧ span < 0x8000000000000000 := by
  simp only [Axis.span?] at hs
  split at hs
  · have hspan := Option.some.inj hs
    omega
  · cases hs

theorem step_lt {axis : Axis} {span next : Nat} {v : Value} (hs : axis.span? = some span)
    (hv : step address axis v = some next) : next < (address + 1) * span := by
  obtain ⟨hspan, -⟩ := span_eq hs
  obtain ⟨n, -, hlow, hhigh, rfl⟩ := step_eq_some_iff.1 hv
  rw [Int64.le_iff_toInt_le] at hlow
  rw [Int64.lt_iff_toInt_lt] at hhigh
  rw [hspan, Int.toNat_natCast, Nat.add_mul, Nat.one_mul]
  omega

/-- While the addresses stay within the limit, a step in 64 bits is exact. -/
theorem advance_eq {axis : Axis} {span : Nat} (hs : axis.span? = some span)
    (hroom : (address + 1) * span ≤ Axis.maxSlots) (v : Value) :
    advance address axis v = .ok (step address axis v) := by
  obtain ⟨hspan, hlimit⟩ := span_eq hs
  have hmax : Axis.maxSlots < UInt64.size := by decide
  rw [advance, step]
  cases v.integral? with
  | none => rfl
  | some n =>
    by_cases hn : axis.low ≤ n ∧ n < axis.high
    · rw [Int64.le_iff_toInt_le, Int64.lt_iff_toInt_lt] at hn
      rw [Nat.add_mul, Nat.one_mul] at hroom
      have hwidth : differenceOf axis.high axis.low = .ok (span : Int) := by
        rw [differenceOf, hspan, if_pos (by omega)]
      have hoffset : differenceOf n axis.low = .ok (n.toInt - axis.low.toInt) := by
        rw [differenceOf, if_pos (by omega)]
      have hproduct : productOf address span = .ok (address * span) := by
        rw [productOf, if_pos (by omega)]
      have hsum : sumOf (address * span) (n.toInt - axis.low.toInt).toNat =
          .ok (address * span + (n.toInt - axis.low.toInt).toNat) := by
        rw [sumOf, if_pos (by omega)]
      simp [hn, hspan, hwidth, hoffset, hproduct, hsum, Int64.le_iff_toInt_le,
        Int64.lt_iff_toInt_lt]
    · have hout : n < axis.low ∨ axis.high ≤ n := by
        rw [Int64.lt_iff_toInt_lt, Int64.le_iff_toInt_le]
        rw [Int64.le_iff_toInt_le, Int64.lt_iff_toInt_lt] at hn
        omega
      simp [hout, hn]

section Spanned

variable {axes : List Axis} {spans : List Nat} (hspans : axes.mapM Axis.span? = some spans)
  (hpos : ∀ span ∈ spans, 0 < span)
include hspans hpos

/-- The address of a key lies below the number of slots. -/
theorem stepAll_lt {key : Key} {last : Nat} (h : stepAll address (key.zip axes) = some last) :
    last < spans.foldl (· * ·) (address + 1) := by
  induction axes generalizing key address spans with
  | nil =>
    obtain rfl := Option.some.inj hspans
    rw [List.zip_nil_right, stepAll, Option.some.injEq] at h
    exact Nat.lt_succ_of_le (Nat.le_of_eq h.symm)
  | cons axis axes ih =>
    simp only [List.mapM_cons, Option.bind_eq_bind, Option.bind_eq_some_iff, Option.pure_def,
      Option.some.injEq] at hspans
    obtain ⟨span, hspan, spans, hspans, rfl⟩ := hspans
    obtain ⟨hfirst, hrest⟩ := List.forall_mem_cons.1 hpos
    cases key with
    | nil =>
      rw [List.zip_nil_left, stepAll, Option.some.injEq] at h
      exact h ▸ Nat.lt_of_lt_of_le (Nat.lt_succ_self address) (le_foldl hpos)
    | cons v key =>
      obtain ⟨next, hnext, h⟩ := Option.bind_eq_some_iff.1 h
      exact Nat.lt_of_lt_of_le (ih hspans hrest h) (foldl_le_foldl (step_lt hspan hnext))

theorem addressFrom_eq {offsets : List Nat} (hfit : ∀ o ∈ offsets, o < e.values.length)
    (hroom : spans.foldl (· * ·) (address + 1) ≤ Axis.maxSlots) :
    addressFrom e address ((offsets.map (· + 1)).zip axes) =
      .ok (stepAll address ((offsets.map e.valueAt).zip axes)) := by
  induction offsets generalizing axes address spans with
  | nil => rfl
  | cons o offsets ih =>
    cases axes with
    | nil => rfl
    | cons axis axes =>
      simp only [List.mapM_cons, Option.bind_eq_bind, Option.bind_eq_some_iff, Option.pure_def,
        Option.some.injEq] at hspans
      obtain ⟨span, hspan, spans, hspans, rfl⟩ := hspans
      obtain ⟨hfirst, hrest⟩ := List.forall_mem_cons.1 hpos
      have hstep : (address + 1) * span ≤ Axis.maxSlots := Nat.le_trans (le_foldl hrest) hroom
      simp only [List.map_cons, List.zip_cons_cons, addressFrom, stepAll,
        Entry.get_eq (hfit o (by simp)), Checked.ok_bind, advance_eq hspan hstep]
      cases hv : step address axis (e.valueAt o) with
      | none => rfl
      | some next =>
        exact ih hspans hrest (fun o ho => hfit o (by simp [ho]))
          (Nat.le_trans (foldl_le_foldl (step_lt hspan hv)) hroom)

end Spanned

/-- A grid with slots has as many as the product of its spans, which is within the limit. -/
theorem exists_spans_of_capacity (hc : g.capacity ≠ 0) : ∃ spans,
    g.axes.mapM Axis.span? = some spans ∧ (∀ span ∈ spans, 0 < span) ∧
    spans.foldl (· * ·) 1 = g.capacity ∧ g.capacity ≤ Axis.maxSlots := by
  rw [capacity] at hc ⊢
  cases hspans : g.axes.mapM Axis.span? with
  | none =>
    rw [hspans] at hc
    exact absurd rfl hc
  | some spans =>
    rw [hspans] at hc
    dsimp only at hc ⊢
    split at hc
    next hlimit =>
      rw [if_pos hlimit]
      exact ⟨spans, rfl, (pos_of_foldl_ne_zero hc).2, rfl, hlimit⟩
    · exact absurd rfl hc

theorem address?_eq (hfit : g.projection.Fits e) :
    g.address? e = .ok (g.addressOf (g.projection.keyOf e)) := by
  rw [address?, addressOf]
  split
  · rfl
  next hc =>
    obtain ⟨spans, hspans, hpos, hcapacity, hlimit⟩ := exists_spans_of_capacity hc
    exact addressFrom_eq hspans hpos hfit (by rwa [hcapacity])

theorem addressOf_lt {key : Key} (h : g.addressOf key = some address) : address < g.capacity := by
  rw [addressOf] at h
  split at h
  · cases h
  next hc =>
    obtain ⟨spans, hspans, hpos, hcapacity, _⟩ := exists_spans_of_capacity hc
    exact hcapacity ▸ stepAll_lt hspans hpos h

theorem slotAt_eq {key : Key} (h : g.addressOf key = some address) :
    g.slotAt address = .ok (g.holder? address) := by
  rw [slotAt, if_pos (addressOf_lt h)]

theorem lookup_eq (hfit : g.projection.Fits e) :
    g.lookup e = .ok ((g.addressOf (g.projection.keyOf e)).bind g.holder?) := by
  rw [lookup, address?_eq hfit, Checked.ok_bind]
  cases haddress : g.addressOf (g.projection.keyOf e) with
  | none => rfl
  | some address => exact slotAt_eq haddress

/-! ## Handles in their slots -/

/-- Every handle stands in the slot at the address of its entry. -/
structure Filed (source : Source) (g : AddressGrid) : Prop where
  ascending : OrderedTable.Ascending Ord.compare g.occupied
  placed : ∀ slot ∈ g.occupied, ∃ e, source slot.2 = some e ∧ g.projection.Fits e ∧
    g.addressOf (g.projection.keyOf e) = some slot.1
  entries : g.tally.entries = g.handles.length

def occupy (g : AddressGrid) (address : Nat) (h : Handle) : AddressGrid :=
  { g with
    occupied := OrderedTable.put Ord.compare address h g.occupied
    tally := g.tally.addEntry.addKey }

def vacate (g : AddressGrid) (address : Nat) : AddressGrid :=
  { g with
    occupied := OrderedTable.erase Ord.compare address g.occupied
    tally := g.tally.removeEntry.removeKey }

theorem empty_filed (π : Projection) (axes : List Axis) : (empty π axes).Filed source where
  ascending := List.Pairwise.nil
  placed := by simp [empty]
  entries := rfl

theorem clear_filed (g : AddressGrid) : g.clear.Filed source where
  ascending := List.Pairwise.nil
  placed := by simp [clear]
  entries := rfl

theorem add_eq (hfit : g.projection.Fits e) : g.add h e = .ok
    (match g.addressOf (g.projection.keyOf e) with
      | none => .error .outOfBounds
      | some address => match g.holder? address with
        | some holder => if holder = h then .ok g else .error (.duplicateKey holder)
        | none => .ok (g.occupy address h)) := by
  rw [add, address?_eq hfit, Checked.ok_bind]
  cases haddress : g.addressOf (g.projection.keyOf e) with
  | none => rfl
  | some address => cases hh : g.holder? address <;> simp [slotAt_eq haddress, hh, occupy]

theorem outOfBounds_iff_of_refused {why : Rejection} (hfit : g.projection.Fits e)
    (hadd : g.add h e = .ok (.error why)) :
    why = .outOfBounds ↔ g.addressOf (g.projection.keyOf e) = none := by
  rw [add_eq hfit, Except.ok.injEq] at hadd
  cases haddress : g.addressOf (g.projection.keyOf e) with
  | none =>
    rw [haddress] at hadd
    exact iff_of_true (Except.error.inj hadd).symm rfl
  | some address =>
    have hheld : ∃ holder, why = .duplicateKey holder := by
      cases hholder : g.holder? address with
      | none => simp [haddress, hholder] at hadd
      | some holder =>
        simp only [haddress, hholder] at hadd
        split at hadd
        · cases hadd
        · exact ⟨holder, (Except.error.inj hadd).symm⟩
    obtain ⟨holder, rfl⟩ := hheld
    exact iff_of_false Rejection.noConfusion (Option.some_ne_none address)

theorem remove?_eq (hfit : g.projection.Fits e) : g.remove? h e = .ok
    ((g.addressOf (g.projection.keyOf e)).bind fun address =>
      if g.holder? address = some h then some (g.vacate address) else none) := by
  rw [remove?, address?_eq hfit, Checked.ok_bind]
  cases haddress : g.addressOf (g.projection.keyOf e) with
  | none => rfl
  | some address =>
    by_cases hh : g.holder? address = some h <;> simp [slotAt_eq haddress, hh, vacate]

theorem mem_handles_iff : h ∈ g.handles ↔ ∃ address, (address, h) ∈ g.occupied := by
  simp [handles]

theorem handles_eq_flatMap : g.handles = g.occupied.flatMap fun slot => [slot.2] := by
  rw [handles, List.map_eq_flatMap]

namespace Filed

variable (hf : g.Filed source)
include hf

theorem holder?_eq_some_iff : g.holder? address = some h ↔ (address, h) ∈ g.occupied := by
  constructor
  · intro hh
    obtain ⟨k, hk, level⟩ := OrderedTable.exists_of_find? hf.ascending hh
    rwa [Std.LawfulEqCmp.eq_of_compare level]
  · exact fun hm => OrderedTable.find?_of_mem hf.ascending hm Std.ReflCmp.compare_self

theorem exists_entry (hh : h ∈ g.handles) : ∃ e, source h = some e ∧ g.projection.Fits e := by
  obtain ⟨address, hm⟩ := mem_handles_iff.1 hh
  obtain ⟨e, hs, hfit, _⟩ := hf.placed _ hm
  exact ⟨e, hs, hfit⟩

/-- The slot at the address of an entry's key is where its handle stands. -/
theorem holder?_iff (hs : source h = some e) : g.holder? address = some h ↔
    h ∈ g.handles ∧ g.addressOf (g.projection.keyOf e) = some address := by
  have level {a : Nat} (ha : (a, h) ∈ g.occupied) :
      g.addressOf (g.projection.keyOf e) = some a := by
    obtain ⟨e', he', _, haddress⟩ := hf.placed _ ha
    obtain rfl := Option.some.inj (hs.symm.trans he')
    exact haddress
  rw [hf.holder?_eq_some_iff, mem_handles_iff]
  constructor
  · exact fun hm => ⟨⟨address, hm⟩, level hm⟩
  · rintro ⟨⟨a, ha⟩, haddress⟩
    obtain rfl := Option.some.inj ((level ha).symm.trans haddress)
    exact ha

theorem handles_occupy (hfree : g.holder? address = none) :
    (g.occupy address h).handles.Perm (h :: g.handles) := by
  have hperm := OrderedTable.flatMap_alter_perm (fun h => [h]) hf.ascending address
    fun _ => some h
  rw [holder?] at hfree
  rw [hfree, Option.elim_none, List.append_nil, Option.elim_some] at hperm
  rw [handles_eq_flatMap, handles_eq_flatMap]
  exact hperm.trans List.perm_append_comm

theorem handles_vacate (hh : g.holder? address = some h) :
    (g.vacate address).handles.Perm (g.handles.erase h) := by
  have hperm := OrderedTable.flatMap_alter_perm (fun h => [h]) hf.ascending address
    fun _ => none
  rw [holder?] at hh
  rw [hh, Option.elim_none, List.append_nil, Option.elim_some] at hperm
  rw [handles_eq_flatMap, handles_eq_flatMap (g := g)]
  exact (List.cons_perm_iff_perm_erase.1 (List.perm_append_comm.trans hperm)).2

theorem occupy (hs : source h = some e) (hfit : g.projection.Fits e)
    (haddress : g.addressOf (g.projection.keyOf e) = some address)
    (hfree : g.holder? address = none) : (g.occupy address h).Filed source where
  ascending := OrderedTable.ascending_alter hf.ascending
  placed := by
    rintro ⟨a, k⟩ hm
    have hfind := OrderedTable.find?_of_mem (OrderedTable.ascending_alter hf.ascending) hm
      Std.ReflCmp.compare_self
    rw [OrderedTable.find?_alter hf.ascending] at hfind
    split at hfind
    next heq =>
      obtain rfl := Option.some.inj hfind
      obtain rfl := Std.LawfulEqCmp.eq_of_compare heq
      exact ⟨e, hs, hfit, haddress⟩
    · exact hf.placed _ (hf.holder?_eq_some_iff.1 hfind)
  entries := by
    rw [(hf.handles_occupy hfree).length_eq, List.length_cons, ← hf.entries]
    rfl

theorem vacate (hh : g.holder? address = some h) : (g.vacate address).Filed source where
  ascending := OrderedTable.ascending_alter hf.ascending
  placed := by
    rintro ⟨a, k⟩ hm
    have hfind := OrderedTable.find?_of_mem (OrderedTable.ascending_alter hf.ascending) hm
      Std.ReflCmp.compare_self
    rw [OrderedTable.find?_alter hf.ascending] at hfind
    split at hfind
    · cases hfind
    · exact hf.placed _ (hf.holder?_eq_some_iff.1 hfind)
  entries := by
    have hm : h ∈ g.handles := mem_handles_iff.2 ⟨address, hf.holder?_eq_some_iff.1 hh⟩
    rw [(hf.handles_vacate hh).length_eq, List.length_erase_of_mem hm, ← hf.entries]
    rfl

theorem add_ok {g' : AddressGrid} (hfit : g.projection.Fits e) (hh : h ∉ g.handles)
    (hadd : g.add h e = .ok (.ok g')) : ∃ address,
    g.addressOf (g.projection.keyOf e) = some address ∧ g.holder? address = none ∧
      g' = g.occupy address h := by
  rw [add_eq hfit, Except.ok.injEq] at hadd
  cases haddress : g.addressOf (g.projection.keyOf e) with
  | none =>
    rw [haddress] at hadd
    cases hadd
  | some address =>
    cases hholder : g.holder? address with
    | some holder =>
      have hne : holder ≠ h := by
        rintro rfl
        exact hh (mem_handles_iff.2 ⟨address, hf.holder?_eq_some_iff.1 hholder⟩)
      simp [haddress, hholder, hne] at hadd
    | none =>
      simp only [haddress, hholder, Except.ok.injEq] at hadd
      exact ⟨address, rfl, hholder, hadd.symm⟩

theorem congr (hk : ∀ h ∈ g.handles, ∀ e, source h = some e → ∃ e', after h = some e' ∧
    g.projection.Fits e' ∧ Key.compare (g.projection.keyOf e) (g.projection.keyOf e') = .eq) :
    g.Filed after where
  ascending := hf.ascending
  placed := by
    intro slot hm
    obtain ⟨e, hs, _, haddress⟩ := hf.placed slot hm
    obtain ⟨e', hs', hfit, level⟩ := hk slot.2 (List.mem_map_of_mem hm) e hs
    exact ⟨e', hs', hfit, by rwa [← addressOf_congr level]⟩
  entries := hf.entries

end Filed

end AddressGrid
end IndexedStore
