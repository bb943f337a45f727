import IndexedStore.Proofs.KeyRows

/-!
# Walks over key rows

A probe seeks the least key with its lead and walks on while the lead lasts. Among ascending rows
without a wildcard this passes every row that agrees with the probe, so a probe always reaches the
rows that its key matches, in key order: a full key the row with exactly this key, a partial one all
rows that agree with it.
-/
namespace IndexedStore

namespace Key

variable {a b c d k probe : Key}

theorem compare_append (h : a.length = b.length) :
    compare (a ++ c) (b ++ d) = (compare a b).then (compare c d) := by
  induction a generalizing b with
  | nil =>
    obtain rfl := List.length_eq_zero_iff.1 h.symm
    rfl
  | cons x a ih =>
    cases b with
    | nil => simp at h
    | cons y b =>
      have tail := ih (by simpa using h)
      simp only [compare] at tail ⊢
      rw [List.cons_append, List.cons_append, List.compareLex_cons_cons,
        List.compareLex_cons_cons, tail, Ordering.then_assoc]

theorem compareSet_eq (h : a.length = b.length) (ha : a.isPartial = false)
    (hb : b.isPartial = false) : compareSet a b = compare a b := by
  induction a generalizing b with
  | nil =>
    obtain rfl := List.length_eq_zero_iff.1 h.symm
    rfl
  | cons x a ih =>
    cases b with
    | nil => simp at h
    | cons y b =>
      simp only [isPartial, List.any_cons, Bool.or_eq_false_iff] at ha hb ih
      have tail := ih (by simpa using h) ha.2 hb.2
      simp only [compare] at tail ⊢
      rw [List.compareLex_cons_cons, compareSet, ← tail]
      simp [ha.1, hb.1]

theorem isPartial_take (h : k.isPartial = false) (n : Nat) : isPartial (k.take n) = false := by
  rw [isPartial, List.any_eq_false] at h ⊢
  exact fun v hv => h v (List.mem_of_mem_take hv)

theorem compare_unset (v : Value) : Value.compare v (.unset v.type) ≠ .lt := by
  cases v <;> simp [Value.compare, Value.type, Value.isUnset, Std.ReflOrd.compare_self]

theorem compare_unsets (h : a.map Value.type = b.map Value.type) :
    compare a (b.map fun v => .unset v.type) ≠ .lt := by
  induction a generalizing b with
  | nil =>
    obtain rfl : b = [] := by simpa using h.symm
    decide
  | cons x a ih =>
    cases b with
    | nil => simp at h
    | cons y b =>
      obtain ⟨hxy, hab⟩ := List.cons.inj h
      rw [List.map_cons, ← hxy]
      simp only [compare] at ih ⊢
      rw [List.compareLex_cons_cons]
      cases hx : Value.compare x (.unset x.type) with
      | lt => exact absurd hx (compare_unset x)
      | eq => exact ih hab
      | gt => simp

theorem selects_eq_agrees_of_leadLength {probe key : Key} (hlead : probe.leadLength = 0)
    (ht : key.map Value.type = probe.map Value.type) : probe.selects key = probe.agrees key := by
  cases probe with
  | nil =>
    obtain rfl : key = [] := by simpa using ht
    rfl
  | cons v rest =>
    have hv : v.isUnset = true := by
      cases hv : v.isUnset with
      | true => rfl
      | false => simp [leadLength, hv] at hlead
    rw [selects, if_pos (by simp [isPartial, hv])]

end Key

namespace OrderedTable

theorem getLast?_flatMap_snd {κ α : Type} {rows : List (κ × List α)} (h : ∀ row ∈ rows, row.2 ≠ []) :
    (rows.flatMap Prod.snd).getLast? = rows.getLast?.bind fun row => row.2.getLast? := by
  rcases rows.eq_nil_or_concat with rfl | ⟨pre, row, rfl⟩
  · rfl
  · have hrow : row.2 ≠ [] := h row (by simp)
    simp [List.getLast?_append, List.getLast?_eq_some_getLast hrow]

end OrderedTable

namespace KeyRows

variable {r : KeyRows} {probe key : Key} {rows : List (Key × List Handle)} {n : Nat}

/-- A key is below the least one with some lead exactly if its own lead is below. -/
theorem compare_leastWithLead (h : key.map Value.type = probe.map Value.type) :
    (Key.compare key (leastWithLead n probe)).isLT =
      (Key.compare (key.take n) (probe.take n)).isLT := by
  have hl : key.length = probe.length := by simpa using congrArg List.length h
  have htake : (key.take n).length = (probe.take n).length := by simp [hl]
  have hdrop : (key.drop n).map Value.type = (probe.drop n).map Value.type := by
    rw [List.map_drop, List.map_drop, h]
  have hrest := Key.compare_unsets hdrop
  have hsplit := Key.compare_append (c := key.drop n)
    (d := (probe.drop n).map fun v => .unset v.type) htake
  rw [List.take_append_drop] at hsplit
  rw [leastWithLead, hsplit]
  cases Key.compare (key.take n) (probe.take n) with
  | lt => rfl
  | eq =>
    rw [Ordering.eq_then]
    cases hc : Key.compare (key.drop n) _ with
    | lt => exact absurd hc hrest
    | eq => rfl
    | gt => rfl
  | gt => rfl

theorem isLE_take {a b : Key} (hl : a.length = b.length) (h : Key.compare a b = .lt) :
    (Key.compare (a.take n) (b.take n)).isLE := by
  have hsplit := Key.compare_append (c := a.drop n) (d := b.drop n)
    (show (a.take n).length = (b.take n).length by simp [hl])
  rw [List.take_append_drop, List.take_append_drop, h] at hsplit
  cases hc : Key.compare (a.take n) (b.take n) with
  | lt => rfl
  | eq => rfl
  | gt => simp [hc] at hsplit

theorem dropWhile_eq_filter {α : Type} {p : α → Bool} {items : List α}
    (h : items.Pairwise fun x y => p y = true → p x = true) :
    items.dropWhile p = items.filter fun x => !p x := by
  induction items with
  | nil => rfl
  | cons x items ih =>
    obtain ⟨hx, hrest⟩ := List.pairwise_cons.1 h
    rw [List.dropWhile_cons, List.filter_cons]
    cases hp : p x with
    | true => exact ih hrest
    | false =>
      refine congrArg (x :: ·) (List.filter_eq_self.2 fun y hy => ?_).symm
      rw [Bool.not_eq_true', ← Bool.not_eq_true]
      intro hpy
      rw [hx y hy hpy] at hp
      cases hp

theorem takeWhile_eq_filter {α : Type} {p : α → Bool} {items : List α}
    (h : items.Pairwise fun x y => p y = true → p x = true) :
    items.takeWhile p = items.filter p := by
  induction items with
  | nil => rfl
  | cons x items ih =>
    obtain ⟨hx, hrest⟩ := List.pairwise_cons.1 h
    rw [List.takeWhile_cons, List.filter_cons]
    cases hp : p x with
    | true => exact congrArg (x :: ·) (ih hrest)
    | false =>
      refine (List.filter_eq_nil_iff.2 fun y hy hpy => ?_).symm
      rw [hx y hy hpy] at hp
      cases hp

/-- In a list that passes from below a goal over it to beyond, the items from the first that is not
below, while they are at the goal, are all that are. -/
theorem takeWhile_dropWhile_eq_filter {α : Type} {f : α → Ordering} {below goal : α → Bool}
    {items : List α} (hb : ∀ x ∈ items, below x = (f x).isLT)
    (hg : ∀ x ∈ items, goal x = (f x).isEq)
    (h : items.Pairwise fun x y => (f x ≠ .lt → f y ≠ .lt) ∧ (f x = .gt → f y = .gt)) :
    (items.dropWhile below).takeWhile goal = items.filter goal := by
  have hdrop : items.dropWhile below = items.filter fun x => !below x := by
    refine dropWhile_eq_filter (h.imp_of_mem fun {x y} hx hy hxy hbelow => ?_)
    rw [hb y hy, Ordering.isLT_iff_eq_lt] at hbelow
    rw [hb x hx, Ordering.isLT_iff_eq_lt]
    exact not_not.1 fun hne => hxy.1 hne hbelow
  have htake : (items.filter fun x => !below x).takeWhile goal =
      (items.filter fun x => !below x).filter goal := by
    refine takeWhile_eq_filter ((h.filter _).imp_of_mem fun {x y} hx hy hxy hgoal => ?_)
    obtain ⟨hx, habove⟩ := List.mem_filter.1 hx
    rw [hg y (List.mem_of_mem_filter hy)] at hgoal
    rw [hb x hx] at habove
    rw [hg x hx]
    cases hfx : f x with
    | lt => simp [hfx] at habove
    | eq => rfl
    | gt => simp [hxy.2 hfx] at hgoal
  rw [hdrop, htake, List.filter_filter]
  refine List.filter_congr fun x hx => ?_
  rw [hb x hx, hg x hx]
  cases f x <;> rfl

theorem compare_lead_of_agrees (hl : key.length = probe.length) (hk : key.isPartial = false)
    (ha : probe.agrees key = true) :
    Key.compare (key.take probe.leadLength) (probe.take probe.leadLength) = .eq := by
  induction probe generalizing key with
  | nil => simp [Key.leadLength, Key.compare, List.compareLex]
  | cons p probe ih =>
    cases key with
    | nil => simp at hl
    | cons x key =>
      cases hp : p.isUnset with
      | true => simp [Key.leadLength, hp, Key.compare, List.compareLex]
      | false =>
        simp only [Key.isPartial, List.any_cons, Bool.or_eq_false_iff] at hk ih
        simp only [Key.agrees, List.zip_cons_cons, List.all_cons, hp, hk.1, Bool.or_self,
          Bool.false_or, Bool.and_eq_true] at ha
        have tail := ih (by simpa using hl) hk.2 ha.2
        have hlead : Key.leadLength (p :: probe) = Key.leadLength probe + 1 := by
          simp [Key.leadLength, hp]
        rw [hlead, List.take_succ_cons, List.take_succ_cons, Key.compare,
          List.compareLex_cons_cons, Ordering.then_eq_eq]
        exact ⟨Value.same_eq_true_iff.1 (by rw [Value.same_comm]; exact ha.1), tail⟩

theorem isPartial_take_lead (probe : Key) :
    Key.isPartial (probe.take probe.leadLength) = false := by
  induction probe with
  | nil => rfl
  | cons p probe ih =>
    cases hp : p.isUnset with
    | true => simp [Key.leadLength, hp, Key.isPartial]
    | false =>
      have hlead : Key.leadLength (p :: probe) = Key.leadLength probe + 1 := by
        simp [Key.leadLength, hp]
      rw [hlead, List.take_succ_cons]
      simp only [Key.isPartial, List.any_cons, hp, Bool.false_or] at ih ⊢
      exact ih

/-- A walk over keys that are long enough stops at the first one with another lead. -/
theorem leading_eq (hn : n ≤ probe.length) (hl : ∀ row ∈ rows, row.1.length = probe.length) :
    leading n probe rows = .ok (rows.takeWhile fun row =>
      (Key.compareSet (row.1.take n) (probe.take n)).isEq) := by
  induction rows with
  | nil => rfl
  | cons row rows ih =>
    have hrow : row.1.lead n = .ok (row.1.take n) := by
      rw [Key.lead, hl row (by simp), if_pos hn]
    have hprobe : probe.lead n = .ok (probe.take n) := by rw [Key.lead, if_pos hn]
    have hrest := ih fun row hr => hl row (by simp [hr])
    rw [leading, hrow, hprobe, hrest, List.takeWhile_cons, Checked.ok_bind, Checked.ok_bind]
    cases (Key.compareSet (row.1.take n) (probe.take n)).isEq <;> rfl

theorem leadLength_le : probe.leadLength ≤ probe.length := (List.takeWhile_sublist _).length_le

namespace Filed

variable {source : Source} (hf : r.Filed source)
  (ht : ∀ row ∈ r.rows, row.1.map Value.type = probe.map Value.type)
include hf ht

/-- While no stored key has a wildcard, the rows with the lead of a probe stand together. -/
theorem withLead_eq (hfull : ∀ row ∈ r.rows, row.1.isPartial = false) :
    r.withLead probe.leadLength probe = .ok (r.rows.filter fun row =>
      (Key.compareSet (row.1.take probe.leadLength) (probe.take probe.leadLength)).isEq) := by
  have hl : ∀ row ∈ r.rows, row.1.length = probe.length := fun row hr => by
    simpa using congrArg List.length (ht row hr)
  rw [withLead, startingAt, leading_eq leadLength_le fun row hr =>
    hl row ((List.dropWhile_sublist _).subset hr), Except.ok.injEq]
  refine takeWhile_dropWhile_eq_filter
    (f := fun row => Key.compare (row.1.take probe.leadLength) (probe.take probe.leadLength))
    (fun row hr => compare_leastWithLead (ht row hr)) (fun row hr => ?_) ?_
  · rw [Key.compareSet_eq (by simp [hl row hr]) (Key.isPartial_take (hfull row hr) _)
      (isPartial_take_lead probe)]
  · refine hf.ascending.imp_of_mem fun {x y} hx hy hlt => ?_
    have hle := isLE_take (n := probe.leadLength) (by rw [hl x hx, hl y hy]) hlt
    constructor
    · intro hne
      have hge : (Key.compare (probe.take probe.leadLength) (x.1.take probe.leadLength)).isLE := by
        rw [← Std.OrientedCmp.isGE_iff_isLE]
        revert hne
        cases Key.compare (x.1.take probe.leadLength) (probe.take probe.leadLength) <;> simp
      exact Std.OrientedCmp.not_lt_of_isLE (Std.TransCmp.isLE_trans hge hle)
    · intro hgt
      exact Std.OrientedCmp.gt_of_lt
        (Std.TransCmp.lt_of_lt_of_isLE (Std.OrientedCmp.lt_of_gt hgt) hle)

omit ht in
/-- A fully set probe looks for one row. -/
theorem flatMap_selects (hp : probe.isPartial = false) :
    (r.rows.filter fun row => probe.selects row.1).flatMap Prod.snd = r.row probe := by
  have hselects : (fun row : Key × List Handle => probe.selects row.1) =
      fun row => (Key.compare probe row.1).isEq := by
    funext row
    rw [Key.selects, hp, if_neg Bool.false_ne_true]
  rw [hselects, List.flatMap_def, OrderedTable.filter_level hf.ascending, row]
  cases OrderedTable.find? Key.compare probe r.rows with
  | none => rfl
  | some items => exact List.append_nil items

/-- A probe reaches the rows whose key matches its own. -/
theorem reached_eq : r.reached probe =
    .ok ((r.rows.filter fun row => probe.selects row.1).map Prod.snd) := by
  rw [reached]
  cases hp : probe.isPartial with
  | false =>
    rw [Bool.not_false, if_pos rfl, ← OrderedTable.filter_level hf.ascending]
    simp [Key.selects, hp]
  | true =>
    have hmatch : (r.rows.filter fun row => probe.selects row.1) =
        r.rows.filter fun row => probe.agrees row.1 := by simp [Key.selects, hp]
    simp only [Bool.not_true, Bool.false_eq_true, if_false, hmatch]
    by_cases hseek : probe.leadLength = 0 ∨ 0 < r.partialRows
    · rw [if_pos hseek]
      rfl
    · rw [if_neg hseek]
      -- No stored key has a wildcard, so a row that agrees with the probe has its lead.
      have hzero : r.partialRows = 0 := by omega
      have hfull : ∀ row ∈ r.rows, row.1.isPartial = false := by
        rw [hf.partials, List.countP_eq_zero] at hzero
        simpa using hzero
      have hlead : ∀ row ∈ r.rows, probe.agrees row.1 = true →
          (Key.compareSet (row.1.take probe.leadLength) (probe.take probe.leadLength)).isEq := by
        intro row hr ha
        have hl : row.1.length = probe.length := by
          simpa using congrArg List.length (ht row hr)
        rw [Key.compareSet_eq (by simp [hl]) (Key.isPartial_take (hfull row hr) _)
          (isPartial_take_lead probe), compare_lead_of_agrees hl (hfull row hr) ha]
        rfl
      rw [hf.withLead_eq ht hfull, Checked.ok_bind, List.filter_filter, Checked.pure_eq_ok]
      congr 2
      refine List.filter_congr fun row hr => ?_
      cases ha : probe.agrees row.1 with
      | false => rfl
      | true => simp [hlead row hr ha]

end Filed

section Lookups

variable {source : Source} {shape : Shape} {probe : Entry} (hf : r.Filed source)
  (hs : source.Conforms shape) (hp : probe.Conforms shape) (hfit : r.projection.Fits probe)
include hf hs hp

theorem types_rows : ∀ row ∈ r.rows,
    row.1.map Value.type = (r.projection.keyOf probe).map Value.type := by
  intro row hr
  obtain ⟨h, hh⟩ := List.exists_mem_of_ne_nil _ (hf.occupied row hr)
  obtain ⟨e, he, _, level⟩ := hf.placed row hr h hh
  rw [← Key.types_eq level, Projection.types_keyOf (hs he) hp]

include hfit

/-- A probe visits the handles of the rows that its key matches, in key order. -/
theorem slice_eq : r.slice probe = .ok
    ((r.rows.filter fun row => (r.projection.keyOf probe).selects row.1).flatMap Prod.snd) := by
  rw [slice, Projection.project_eq hfit, Checked.ok_bind, hf.reached_eq (types_rows hf hs hp),
    Checked.ok_bind, Checked.pure_eq_ok, List.flatMap]

theorem first_eq_head? {hits : List Handle} (hslice : r.slice probe = .ok hits) :
    r.first probe = .ok hits.head? := by
  rw [slice_eq hf hs hp hfit, Except.ok.injEq] at hslice
  rw [first, Projection.project_eq hfit, Checked.ok_bind, hf.reached_eq (types_rows hf hs hp),
    Checked.ok_bind, Checked.pure_eq_ok, ← hslice]
  have hne : ∀ row ∈ r.rows.filter fun row => (r.projection.keyOf probe).selects row.1,
      row.2 ≠ [] := fun row hr => hf.occupied row (List.mem_of_mem_filter hr)
  cases hrows : r.rows.filter fun row => (r.projection.keyOf probe).selects row.1 with
  | nil => rfl
  | cons row rows =>
    rw [hrows] at hne
    cases hrow : row.2 with
    | nil => exact absurd hrow (hne row (by simp))
    | cons h hits => simp [hrow]

theorem last_eq_getLast? {hits : List Handle} (hslice : r.slice probe = .ok hits) :
    r.last probe = .ok hits.getLast? := by
  have hne : ∀ row ∈ r.rows.filter fun row => (r.projection.keyOf probe).selects row.1,
      row.2 ≠ [] := fun row hr => hf.occupied row (List.mem_of_mem_filter hr)
  rw [slice_eq hf hs hp hfit, Except.ok.injEq] at hslice
  rw [last, Projection.project_eq hfit, Checked.ok_bind, ← hslice,
    OrderedTable.getLast?_flatMap_snd hne]
  split
  next hlead =>
    have hselects : ∀ row ∈ r.rows, (r.projection.keyOf probe).selects row.1 =
        (r.projection.keyOf probe).agrees row.1 := fun row hr =>
      Key.selects_eq_agrees_of_leadLength hlead (types_rows hf hs hp row hr)
    rw [List.filter_congr hselects, ← List.head?_reverse, ← List.filter_reverse, List.head?_filter]
    rfl
  next =>
    rw [hf.reached_eq (types_rows hf hs hp), Checked.ok_bind, List.getLast?_map, Option.bind_map]
    rfl

/-- A probe visits exactly the handles whose entry's key its own matches. -/
theorem mem_slice_iff {hits : List Handle} (hslice : r.slice probe = .ok hits) {h : Handle}
    {e : Entry} (he : source h = some e) : h ∈ hits ↔
      h ∈ r.handles ∧ (r.projection.keyOf probe).selects (r.projection.keyOf e) = true := by
  have level : ∀ row ∈ r.rows, h ∈ row.2 → (r.projection.keyOf probe).selects row.1 =
      (r.projection.keyOf probe).selects (r.projection.keyOf e) := by
    intro row hr hh
    obtain ⟨e', he', _, hlevel⟩ := hf.placed row hr h hh
    obtain rfl := Option.some.inj (he.symm.trans he')
    exact (Key.selects_congr hlevel _).symm
  rw [slice_eq hf hs hp hfit, Except.ok.injEq] at hslice
  simp only [← hslice, handles, List.mem_flatMap, List.mem_filter]
  constructor
  · rintro ⟨row, ⟨hr, hmatch⟩, hh⟩
    exact ⟨⟨row, hr, hh⟩, level row hr hh ▸ hmatch⟩
  · rintro ⟨⟨row, hr, hh⟩, hmatch⟩
    exact ⟨row, ⟨hr, (level row hr hh).trans hmatch⟩, hh⟩

end Lookups

end KeyRows
end IndexedStore
