import IndexedStore.Proofs.KeyRanges
import IndexedStore.Proofs.RowHistories

/-!
# Walks over a range of keys

While all stored keys are fully set, a range visits exactly the keys between its bounds. A key with a
wildcard sorts by its sentinel but meets the bound by its other values, so it can end a walk before
keys that are inside the range: then an addition hides others.
-/
namespace IndexedStore

namespace KeyRows

variable {r : KeyRows} {source : Source}

/-- Among ascending rows, a range is walked from the first row to the end of the range. -/
theorem Filed.range_eq (hf : r.Filed source) (range : KeyRange Key) :
    r.range range = range.visit r.rows := by
  have hstart : ∀ low, r.startingAt low =
      r.rows.filter fun row => !(Key.compare row.1 low).isLT := fun low => by
    refine dropWhile_eq_filter (hf.ascending.imp fun {x y} hlt hy => ?_)
    rw [Ordering.isLT_iff_eq_lt] at hy ⊢
    exact Std.TransCmp.lt_trans hlt hy
  rw [KeyRows.range, KeyRange.visit]
  simp only [KeyRange.enters]
  cases range.lower.key? with
  | none => simp
  | some low =>
    simp only [hstart, List.filter_filter, Option.all_some, Bool.and_comm]

namespace Holds

variable {shape : Shape} {placed : Arrivals} {range : KeyRange Key} (hr : r.Holds shape placed)
include hr

theorem exists_item {row : Key × List Handle} (hrow : row ∈ r.rows) :
    ∃ item ∈ placed, item.1 ∈ row.2 ∧ Key.compare (r.projection.keyOf item.2) row.1 = .eq := by
  obtain ⟨h, hh⟩ := List.exists_mem_of_ne_nil _ (hr.filed.occupied row hrow)
  obtain ⟨e, he, _, level⟩ := hr.filed.placed row hrow h hh
  exact ⟨(h, e), Arrivals.mem_of_known he, hh, level⟩

theorem length_of_mem_rows {row : Key × List Handle} (hrow : row ∈ r.rows) :
    row.1.length = r.projection.width := by
  obtain ⟨item, -, -, level⟩ := hr.exists_item hrow
  rw [← Key.length_eq level, Projection.length_keyOf]

/-- While all keys are fully set, the walk over a range finds the keys inside it. -/
theorem range_eq_walk (hset : ∀ item ∈ placed, (r.projection.keyOf item.2).isPartial = false)
    (hb : ∀ bound ∈ range.keys, r.projection.Bounds shape bound) :
    r.range range = placed.walk r.projection (range.contains Key.compareLead) := by
  have hfull : ∀ row ∈ r.rows, row.1.isPartial = false := by
    intro row hrow
    obtain ⟨item, hi, -, level⟩ := hr.exists_item hrow
    rw [← Key.isPartial_eq level, hset item hi]
  have hbound : ∀ row ∈ r.rows, ∀ bound ∈ range.keys,
      row.1.map Value.type = bound.map Value.type ∧ bound.IsLead := by
    intro row hrow bound hm
    obtain ⟨item, hi, -, level⟩ := hr.exists_item hrow
    rw [(hb bound hm).types, ← Key.types_eq level]
    exact ⟨Projection.types_keyOf (hr.conforms item hi) (Entry.conforms_blank shape),
      (hb bound hm).lead⟩
  have hinside : ∀ row ∈ r.rows, (range.upper.admitsBelow Key.compareSet row.1 &&
      range.enters row.1) = range.contains Key.compareLead row.1 := by
    intro row hrow
    rw [KeyRange.enters_eq (hfull row hrow) (hbound row hrow),
      KeyRange.admitsBelow_eq (hfull row hrow) (hbound row hrow), Bool.and_comm, KeyRange.contains]
  rw [hr.filed.range_eq, KeyRange.visit, takeWhile_eq_filter, List.filter_filter,
    List.filter_congr hinside, hr.flatMap_filter fun _ _ => KeyRange.contains_congr]
  refine (hr.filed.ascending.filter _).imp_of_mem fun {x y} hx hy hlt hbelow => ?_
  have hx := List.mem_of_mem_filter hx
  have hy := List.mem_of_mem_filter hy
  rw [KeyRange.admitsBelow_eq (hfull y hy) (hbound y hy)] at hbelow
  rw [KeyRange.admitsBelow_eq (hfull x hx) (hbound x hx)]
  exact KeyRange.admitsBelow_of_lt (by rw [hr.length_of_mem_rows hx, hr.length_of_mem_rows hy]) hlt
    hbelow

/-! ## Ranges after an addition -/

variable {h : Handle} {key : Key} {pre post : List (Key × List Handle)}

theorem compare_of_visited {side : List (Key × List Handle)} (hsub : side ⊆ r.rows) {o : Ordering}
    (hside : ∀ row ∈ side, Key.compare key row.1 = o) {item : Handle × Entry} (hi : item ∈ placed)
    (hm : item.1 ∈ range.visit side) : Key.compare key (r.projection.keyOf item.2) = o := by
  obtain ⟨row, hrow, -, hh⟩ := range.mem_visit hm
  obtain ⟨e, he, -, level⟩ := hr.filed.placed row (hsub hrow) _ hh
  rw [Arrivals.eq_of_mem hr.nodup hi (Arrivals.mem_of_known he), Std.TransCmp.congr_right level]
  exact hside row hrow

theorem not_mem_visit {side : List (Key × List Handle)} (hsub : side ⊆ r.rows)
    (hh : h ∉ placed.handles) : h ∉ range.visit side := by
  intro hm
  obtain ⟨row, hrow, -, hm⟩ := range.mem_visit hm
  exact hh (hr.mem_handles_iff.1 (List.mem_flatMap.2 ⟨row, hsub hrow, hm⟩))

theorem exists_visited {side : List (Key × List Handle)} (hsub : side ⊆ r.rows)
    (hne : range.visit side ≠ []) : ∃ item ∈ placed, item.1 ∈ range.visit side := by
  obtain ⟨h, hh⟩ := List.exists_mem_of_ne_nil _ hne
  obtain ⟨row, hrow, -, hm⟩ := range.mem_visit hh
  obtain ⟨e, he, -⟩ := hr.filed.placed row (hsub hrow) h hm
  exact ⟨(h, e), Arrivals.mem_of_known he, hh⟩

theorem visit_before_iff (hh : h ∉ placed.handles) (hpre : pre ⊆ r.rows)
    (below : ∀ row ∈ pre, Key.compare key row.1 = .gt) :
    (range.visit pre).erase h = range.visit pre ↔ ∀ item ∈ placed,
      item.1 ∈ range.visit pre → Key.compare key (r.projection.keyOf item.2) ≠ .lt := by
  refine iff_of_true (List.erase_of_not_mem (hr.not_mem_visit hpre hh)) fun item hi hm => ?_
  simp [hr.compare_of_visited hpre below hi hm]

theorem visit_upto_iff (hh : h ∉ placed.handles) (hpre : pre ⊆ r.rows) (hpost : post ⊆ r.rows)
    (below : ∀ row ∈ pre, Key.compare key row.1 = .gt)
    (above : ∀ row ∈ post, Key.compare key row.1 = .lt) :
    (range.visit pre).erase h = range.visit pre ++ range.visit post ↔
      ∀ item ∈ placed, item.1 ∈ range.visit pre ++ range.visit post →
        Key.compare key (r.projection.keyOf item.2) ≠ .lt := by
  rw [List.erase_of_not_mem (hr.not_mem_visit hpre hh), eq_comm, List.append_right_eq_self]
  constructor
  · intro hnone item hi hm
    rw [hnone, List.append_nil] at hm
    simp [hr.compare_of_visited hpre below hi hm]
  · intro hall
    by_contra hne
    obtain ⟨item, hi, hm⟩ := hr.exists_visited hpost hne
    exact hall item hi (List.mem_append_right _ hm) (hr.compare_of_visited hpost above hi hm)

/-- A handle that comes to stand under a key takes nothing from the walk over a range, unless the
walk now ends at this key and went on before. -/
theorem range_push_iff {e : Entry} (he : e.Conforms shape) (hh : h ∉ placed.handles)
    (range : KeyRange Key) :
    ((r.push (r.projection.keyOf e) h).range range).erase h = r.range range ↔
      (range.endsAt (r.projection.keyOf e) = true → ∀ item ∈ placed, item.1 ∈ r.range range →
        Key.compare (r.projection.keyOf e) (r.projection.keyOf item.2) ≠ .lt) := by
  rw [(hr.push he hh).filed.range_eq, hr.filed.range_eq, push_rows, row_eq_listAt]
  generalize r.projection.keyOf e = key
  obtain ⟨pre, post, below, above, hplace⟩ :=
    OrderedTable.putList_cases hr.filed.ascending key h
  have hpre : pre ⊆ r.rows := by
    rcases hplace with ⟨hrows, -⟩ | ⟨k, v, -, hrows, -⟩ <;> simp [hrows]
  have hpost : post ⊆ r.rows := by
    rcases hplace with ⟨hrows, -⟩ | ⟨k, v, -, hrows, -⟩
    · simp [hrows]
    · rw [hrows]
      exact fun row hm => List.mem_append_right _ (List.mem_cons_of_mem _ hm)
  have hbefore : h ∉ range.visit pre := hr.not_mem_visit hpre hh
  have hafter : h ∉ range.visit post := hr.not_mem_visit hpost hh
  cases hends : range.endsAt key with
  | false =>
    refine iff_of_true ?_ (by simp)
    rcases hplace with ⟨hrows, hput⟩ | ⟨k, v, level, hrows, hput⟩
    · rw [hput, hrows]
      exact (range.erase_visit hends hbefore List.not_mem_nil hafter).trans (range.visit_skip hends)
    · have hv : h ∉ v := by
        intro hm
        have hrow : (k, v) ∈ r.rows := by simp [hrows]
        exact hh (hr.mem_handles_iff.1 (List.mem_flatMap.2 ⟨_, hrow, hm⟩))
      rw [hput, hrows]
      exact range.erase_visit ((range.endsAt_congr level).symm.trans hends) hbefore hv hafter
  | true =>
    rcases hplace with ⟨hrows, hput⟩ | ⟨k, v, level, hrows, hput⟩
    · rw [hput, hrows, KeyRange.visit_append, KeyRange.visit_append, KeyRange.visit_cons, hends,
        if_pos rfl]
      split
      next => simpa using hr.visit_before_iff hh hpre below
      next => simpa using hr.visit_upto_iff hh hpre hpost below above
    · rw [hput, hrows, KeyRange.visit_append, KeyRange.visit_append, KeyRange.visit_cons,
        KeyRange.visit_cons, ← range.endsAt_congr level, hends]
      simpa using hr.visit_before_iff hh hpre below

theorem range_push_of_set {e : Entry} (he : e.Conforms shape) (hh : h ∉ placed.handles)
    (hset : (r.projection.keyOf e).isPartial = false)
    (hb : ∀ bound ∈ range.keys, r.projection.Bounds shape bound) :
    ((r.push (r.projection.keyOf e) h).range range).erase h = r.range range := by
  have htypes {x : Entry} (hx : x.Conforms shape) : (r.projection.keyOf e).map Value.type =
      (r.projection.keyOf x).map Value.type := Projection.types_keyOf he hx
  have hbound : ∀ bound ∈ range.keys,
      (r.projection.keyOf e).map Value.type = bound.map Value.type ∧ bound.IsLead := fun bound hm =>
    ⟨(htypes (Entry.conforms_blank shape)).trans (hb bound hm).types.symm, (hb bound hm).lead⟩
  refine (hr.range_push_iff he hh range).2 fun hends item hi hm hlt => ?_
  rw [hr.filed.range_eq] at hm
  obtain ⟨row, hrow, hadmits, hh⟩ := range.mem_visit hm
  obtain ⟨x, hx, -, level⟩ := hr.filed.placed row hrow _ hh
  obtain rfl : item.2 = x := Arrivals.eq_of_mem hr.nodup hi (Arrivals.mem_of_known hx)
  rw [Std.TransCmp.congr_right level] at hlt
  have hrowtypes := (htypes (hr.conforms item hi)).trans (Key.types_eq level)
  simp [KeyRange.admitsBelow_of_endsAt hset hbound hrowtypes hlt hends] at hadmits

end Holds

section Histories

variable {shape : Shape} {fields : List Nat} {π : Projection} {unique : Bool}
  {actions : List Action} (hπ : Projection.onPositions shape fields .ordering = .ok π)
  (ha : Arrivals.Permits shape π unique [] actions)
include hπ ha

/-- While all stored keys are fully set, whatever was there before, a range visits the handles whose
keys lie between its bounds, each compared by the lead of the bound: once each, in order of the keys
and within a key in order of arrival. -/
theorem ranges_are_walks
    (hset : ∀ item ∈ Arrivals.actAll π unique actions, (π.keyOf item.2).isPartial = false) :
    ∃ r, (empty π unique).actAll actions = .ok r ∧
      ∀ range : KeyRange Key, (∀ bound ∈ range.keys, π.Bounds shape bound) →
        r.range range =
          (Arrivals.actAll π unique actions).walk π (range.contains Key.compareLead) ∧
        (r.range range).Nodup := by
  obtain ⟨r, hrun, hproj, -, hr⟩ :=
    (Holds.empty (Projection.onPositions_spec hπ).1 unique).actAll ha
  obtain rfl : r.projection = π := hproj
  refine ⟨r, hrun, fun range hb => ?_⟩
  have hwalk := hr.range_eq_walk hset hb
  refine ⟨hwalk, ?_⟩
  rw [hwalk]
  exact (StableOrder.perm_arranged.map Prod.fst).nodup_iff.2 hr.nodup |>.sublist
    (List.filter_sublist.map _)

/-- An addition takes nothing from the walk over a range, unless the walk now ends at the new key and
went on before to keys above it. With a fully set key and bounds of the key fields it never does. -/
theorem range_kept_iff {r r' : KeyRows} {h : Handle} {e : Entry}
    (hrun : (empty π unique).actAll actions = .ok r) (he : e.Conforms shape)
    (hh : h ∉ (Arrivals.actAll π unique actions).handles) (hadd : r.add h e = .ok (.ok r'))
    (range : KeyRange Key) :
    ((r'.range range).erase h = r.range range ↔
      (range.endsAt (π.keyOf e) = true → ∀ item ∈ Arrivals.actAll π unique actions,
        item.1 ∈ r.range range → Key.compare (π.keyOf e) (π.keyOf item.2) ≠ .lt)) ∧
    ((π.keyOf e).isPartial = false → (∀ bound ∈ range.keys, π.Bounds shape bound) →
      (r'.range range).erase h = r.range range) := by
  obtain ⟨r₁, hrun₁, hproj, -, hr⟩ :=
    (Holds.empty (Projection.onPositions_spec hπ).1 unique).actAll ha
  obtain rfl : r₁ = r := Except.ok.inj (hrun₁.symm.trans hrun)
  obtain rfl : r₁.projection = π := hproj
  rw [add_eq (hr.inside.fits he), Except.ok.injEq] at hadd
  cases hrival : r₁.rival? h e with
  | some rival =>
    rw [hrival] at hadd
    cases hadd
  | none =>
    rw [hrival] at hadd
    obtain rfl := Except.ok.inj hadd
    exact ⟨hr.range_push_iff he hh range, hr.range_push_of_set he hh⟩

end Histories

/-- Keys of one lead side by side, one of them twice, after a key with a wildcard came and went. -/
def sampleLeads : List Action :=
  [.add ⟨0, 0⟩ (sampleKey (.int 2) (.int 4)), .add ⟨1, 0⟩ (sampleKey (.unset .int) (.int 1)),
    .add ⟨2, 0⟩ (sampleKey (.int 1) (.int 7)), .add ⟨3, 0⟩ (sampleKey (.int 1) (.int 5)),
    .add ⟨4, 0⟩ (sampleKey (.int 1) (.int 7)), .remove ⟨1, 0⟩ (sampleKey (.unset .int) (.int 1))]

theorem ranges_are_walks_of_leads : ∃ π r,
    Projection.onPositions ⟨[.int, .int]⟩ [1, 2] .ordering = .ok π ∧
    Arrivals.Permits ⟨[.int, .int]⟩ π false [] sampleLeads ∧
    (∀ item ∈ Arrivals.actAll π false sampleLeads, (π.keyOf item.2).isPartial = false) ∧
    (empty π false).actAll sampleLeads = .ok r ∧
    r.range (.below [.int 1, .unset .int] false) = [⟨3, 0⟩, ⟨2, 0⟩, ⟨4, 0⟩] ∧
    r.range (.above [.int 1, .unset .int] true) = [⟨0, 0⟩] ∧
    r.range (.between [.int 2, .int 0] [.int 1, .int 9] false false) = [] := by
  obtain ⟨π, hπ⟩ : ∃ π, Projection.onPositions ⟨[.int, .int]⟩ [1, 2] .ordering = .ok π := ⟨_, rfl⟩
  have hsame := hπ
  obtain rfl := Except.ok.inj hsame
  have ha : Arrivals.Permits ⟨[.int, .int]⟩ ⟨⟨[.int, .int]⟩, [0, 1], .ordering⟩ false []
    sampleLeads := by decide
  have hset : ∀ item ∈ Arrivals.actAll ⟨⟨[.int, .int]⟩, [0, 1], .ordering⟩ false sampleLeads,
    Key.isPartial (Projection.keyOf ⟨⟨[.int, .int]⟩, [0, 1], .ordering⟩ item.2) = false := by decide
  obtain ⟨r, hrun, hr⟩ := ranges_are_walks hπ ha hset
  refine ⟨_, r, hπ, ha, hset, hrun, ?_, ?_, ?_⟩
  · exact (hr _ (by decide)).1.trans (by decide)
  · exact (hr _ (by decide)).1.trans (by decide)
  · exact (hr _ (by decide)).1.trans (by decide)

def sampleRange : KeyRange Key := .below [.int 0, .int 5] false

/-- A key without a first value sorts first. With a second value of nine it ends the walk, and the
key it stands before is visited no longer. -/
theorem range_hidden_by_addition : ∃ π r r',
    Projection.onPositions ⟨[.int, .int]⟩ [1, 2] .ordering = .ok π ∧
    (∀ bound ∈ sampleRange.keys, π.Bounds ⟨[.int, .int]⟩ bound) ∧
    (empty π false).actAll [.add ⟨0, 0⟩ (sampleKey (.int 0) (.int 1))] = .ok r ∧
    r.add ⟨1, 0⟩ (sampleKey (.unset .int) (.int 9)) = .ok (.ok r') ∧
    r.range sampleRange = [⟨0, 0⟩] ∧ (r'.range sampleRange).erase ⟨1, 0⟩ = [] := by
  refine ⟨_, _, _, rfl, ?_, rfl, rfl, ?_, ?_⟩ <;> decide

theorem range_kept_iff_of_sample : ∃ π r r',
    Projection.onPositions ⟨[.int, .int]⟩ [1, 2] .ordering = .ok π ∧
    Arrivals.Permits ⟨[.int, .int]⟩ π false []
      [.add ⟨0, 0⟩ (sampleKey (.int 0) (.int 1))] ∧
    (empty π false).actAll [.add ⟨0, 0⟩ (sampleKey (.int 0) (.int 1))] = .ok r ∧
    r.add ⟨1, 0⟩ (sampleKey (.unset .int) (.int 3)) = .ok (.ok r') ∧
    ⟨1, 0⟩ ∈ r'.range sampleRange ∧
    (r'.range sampleRange).erase ⟨1, 0⟩ = r.range sampleRange := by
  obtain ⟨π, hπ⟩ : ∃ π, Projection.onPositions ⟨[.int, .int]⟩ [1, 2] .ordering = .ok π := ⟨_, rfl⟩
  have hsame := hπ
  obtain rfl := Except.ok.inj hsame
  have ha : Arrivals.Permits ⟨[.int, .int]⟩ ⟨⟨[.int, .int]⟩, [0, 1], .ordering⟩ false []
    [.add ⟨0, 0⟩ (sampleKey (.int 0) (.int 1))] := by decide
  have he : Entry.Conforms (sampleKey (.unset .int) (.int 3)) ⟨[.int, .int]⟩ := by decide
  refine ⟨_, _, _, hπ, ha, rfl, rfl, by decide, ?_⟩
  exact (range_kept_iff hπ ha rfl he (by decide) rfl sampleRange).1.2 (by decide)

end KeyRows
end IndexedStore
