import Mathlib.Data.List.Nodup
import Mathlib.Data.List.Perm.Basic
import IndexedStore.OrderedTable.Lemmas

/-!
# The rows of an ordered table

A key stands at one place among ascending rows: at a row of its own, or between the rows below it
and those above. An alteration changes the table at this place and nowhere else, so that what the
rows hold together changes by the content of one row.
-/
namespace IndexedStore.OrderedTable

variable {κ ν : Type} (compare : κ → κ → Ordering)

/-- Where a key stands among some rows. -/
inductive Split (key : κ) : List (κ × ν) → Prop
  | absent {pre post : List (κ × ν)} (below : ∀ row ∈ pre, compare key row.1 = .gt)
      (above : ∀ row ∈ post, compare key row.1 = .lt) : Split key (pre ++ post)
  | present {pre post : List (κ × ν)} {k : κ} {v : ν}
      (below : ∀ row ∈ pre, compare key row.1 = .gt) (level : compare key k = .eq)
      (above : ∀ row ∈ post, compare key row.1 = .lt) : Split key (pre ++ (k, v) :: post)

variable {compare} {key : κ} {f : Option ν → Option ν} {pre post rows : List (κ × ν)}

theorem find?_append (below : ∀ row ∈ pre, compare key row.1 = .gt) :
    find? compare key (pre ++ post) = find? compare key post := by
  induction pre with
  | nil => rfl
  | cons row pre ih =>
    rw [List.cons_append, find?, below row (by simp)]
    exact ih fun r hr => below r (by simp [hr])

theorem find?_present {k : κ} {v : ν} (below : ∀ row ∈ pre, compare key row.1 = .gt)
    (level : compare key k = .eq) : find? compare key (pre ++ (k, v) :: post) = some v := by
  rw [find?_append below, find?, level]

theorem find?_absent (below : ∀ row ∈ pre, compare key row.1 = .gt)
    (above : ∀ row ∈ post, compare key row.1 = .lt) : find? compare key (pre ++ post) = none := by
  rw [find?_append below, find?_of_below above]

theorem alter_append (below : ∀ row ∈ pre, compare key row.1 = .gt) :
    alter compare key f (pre ++ post) = pre ++ alter compare key f post := by
  induction pre with
  | nil => rfl
  | cons row pre ih =>
    rw [List.cons_append, alter, below row (by simp), List.cons_append]
    exact congrArg _ (ih fun r hr => below r (by simp [hr]))

theorem alter_present {k : κ} {v : ν} (below : ∀ row ∈ pre, compare key row.1 = .gt)
    (level : compare key k = .eq) :
    alter compare key f (pre ++ (k, v) :: post) = pre ++ consRow k (f (some v)) post := by
  rw [alter_append below, alter, level]

theorem alter_absent (below : ∀ row ∈ pre, compare key row.1 = .gt)
    (above : ∀ row ∈ post, compare key row.1 = .lt) :
    alter compare key f (pre ++ post) = pre ++ consRow key (f none) post := by
  rw [alter_append below]
  cases post with
  | nil => rfl
  | cons row post => rw [alter, above row (by simp)]

theorem flatMap_consRow {α : Type} (g : κ → ν → List α) (content : Option ν) :
    (consRow key content rows).flatMap (fun row => g row.1 row.2) =
      content.elim [] (g key) ++ rows.flatMap fun row => g row.1 row.2 := by
  cases content <;> simp [consRow]

section Ordered

variable [Std.TransCmp compare]

theorem split (h : Ascending compare rows) (key : κ) : Split compare key rows := by
  induction rows with
  | nil =>
    change Split compare key ([] ++ [])
    exact .absent (by simp) (by simp)
  | cons row rows ih =>
    have ⟨above, rest⟩ := List.pairwise_cons.1 h
    cases hk : compare key row.1 with
    | lt =>
      change Split compare key ([] ++ row :: rows)
      refine .absent (by simp) fun r hr => ?_
      rcases List.mem_cons.1 hr with rfl | hr
      · exact hk
      · exact Std.TransCmp.lt_trans hk (above r hr)
    | eq =>
      change Split compare key ([] ++ row :: rows)
      refine .present (by simp) hk fun r hr => ?_
      exact Std.TransCmp.lt_of_eq_of_lt hk (above r hr)
    | gt =>
      cases ih rest with
      | @absent pre post below beyond =>
        change Split compare key ((row :: pre) ++ post)
        exact .absent (by simpa [hk] using below) beyond
      | @present pre post k v below level beyond =>
        change Split compare key ((row :: pre) ++ (k, v) :: post)
        exact .present (by simpa [hk] using below) level beyond

theorem nodup_keys (h : Ascending compare rows) : (rows.map Prod.fst).Nodup := by
  rw [List.Nodup, List.pairwise_map]
  exact h.imp fun hlt heq => by simp [heq, Std.ReflCmp.compare_self] at hlt

theorem exists_of_find? (h : Ascending compare rows) {v : ν} (hf : find? compare key rows = some v) :
    ∃ k, (k, v) ∈ rows ∧ compare key k = .eq := by
  cases split h key with
  | absent below above => simp [find?_absent below above] at hf
  | @present pre post k w below level above =>
    rw [find?_present below level] at hf
    obtain rfl := Option.some.inj hf
    exact ⟨k, by simp, level⟩

theorem find?_of_mem (h : Ascending compare rows) {row : κ × ν} (hr : row ∈ rows)
    (level : compare key row.1 = .eq) : find? compare key rows = some row.2 := by
  obtain ⟨pre, post, rfl⟩ := List.append_of_mem hr
  have below : ∀ r ∈ pre, compare key r.1 = .gt := by
    intro r hm
    have hlt : compare r.1 row.1 = .lt := (List.pairwise_append.1 h).2.2 r hm row (by simp)
    exact Std.OrientedCmp.gt_of_lt
      (Std.TransCmp.lt_of_lt_of_eq hlt (Std.OrientedCmp.eq_symm level))
  exact find?_present below level

theorem find?_congr {a b : κ} (h : compare a b = .eq) :
    find? compare a rows = find? compare b rows := by
  induction rows with
  | nil => rfl
  | cons row rows ih => rw [find?, find?, Std.TransCmp.congr_left h, ih]

theorem alter_congr {g : Option ν → Option ν} (h : Ascending compare rows)
    (hfg : f (find? compare key rows) = g (find? compare key rows)) :
    alter compare key f rows = alter compare key g rows := by
  cases split h key with
  | @absent pre post below above =>
    rw [find?_absent below above] at hfg
    rw [alter_absent below above, alter_absent below above, hfg]
  | @present pre post k v below level above =>
    rw [find?_present below level] at hfg
    rw [alter_present below level, alter_present below level, hfg]

theorem alter_eq_self (h : Ascending compare rows)
    (hf : f (find? compare key rows) = find? compare key rows) :
    alter compare key f rows = rows := by
  cases split h key with
  | @absent pre post below above =>
    rw [find?_absent below above] at hf
    rw [alter_absent below above, hf]
    rfl
  | @present pre post k v below level above =>
    rw [find?_present below level] at hf
    rw [alter_present below level, hf]
    rfl

/-- Two alterations of one row are one alteration, if the first does not take the row away. -/
theorem alter_alter {g : Option ν → Option ν} (h : Ascending compare rows)
    (hf : ∀ v, (f (some v)).isSome) :
    alter compare key g (alter compare key f rows) = alter compare key (fun c => g (f c)) rows := by
  cases split h key with
  | @absent pre post below above =>
    rw [alter_absent below above, alter_absent below above]
    cases f none with
    | none => exact alter_absent below above
    | some w => exact alter_present below Std.ReflCmp.compare_self
  | @present pre post k v below level above =>
    rw [alter_present below level, alter_present below level]
    obtain ⟨w, hw⟩ := Option.isSome_iff_exists.1 (hf v)
    rw [hw]
    exact alter_present below level

theorem alter_undone {g : Option ν → Option ν} (h : Ascending compare rows)
    (hf : ∀ v, (f (some v)).isSome) (hg : g (f (find? compare key rows)) = find? compare key rows) :
    alter compare key g (alter compare key f rows) = rows :=
  (alter_alter h hf).trans (alter_eq_self h hg)

/-- What the rows have together changes at one place, where the altered row is. -/
theorem exists_flatMap_alter {α : Type} {g : κ → ν → List α} (h : Ascending compare rows) (key : κ)
    (hg : ∀ k, compare key k = .eq → g k = g key) : ∃ before after,
    rows.flatMap (fun row => g row.1 row.2) =
      before ++ (find? compare key rows).elim [] (g key) ++ after ∧
    ∀ f, (alter compare key f rows).flatMap (fun row => g row.1 row.2) =
      before ++ (f (find? compare key rows)).elim [] (g key) ++ after := by
  cases split h key with
  | @absent pre post below above =>
    refine ⟨pre.flatMap fun row => g row.1 row.2, post.flatMap fun row => g row.1 row.2, ?_,
      fun f => ?_⟩
    · simp [find?_absent below above]
    · rw [alter_absent below above, find?_absent below above, List.flatMap_append,
        flatMap_consRow, List.append_assoc]
  | @present pre post k v below level above =>
    refine ⟨pre.flatMap fun row => g row.1 row.2, post.flatMap fun row => g row.1 row.2, ?_,
      fun f => ?_⟩
    · simp [find?_present below level, hg k level]
    · rw [alter_present below level, find?_present below level, List.flatMap_append,
        flatMap_consRow, hg k level, List.append_assoc]

theorem flatMap_alter_perm {α : Type} (g : ν → List α) (h : Ascending compare rows) (key : κ)
    (f : Option ν → Option ν) :
    ((alter compare key f rows).flatMap (fun row => g row.2) ++ (find? compare key rows).elim [] g).Perm
      (rows.flatMap (fun row => g row.2) ++ (f (find? compare key rows)).elim [] g) := by
  obtain ⟨before, after, hold, hnew⟩ :=
    exists_flatMap_alter (g := fun _ => g) h key fun _ _ => rfl
  rw [hold, hnew]
  simp only [List.append_assoc]
  refine List.Perm.append_left before (List.perm_append_comm.trans ?_)
  rw [← List.append_assoc]
  exact List.perm_append_comm.append_right _

theorem find?_beyond {a : κ × ν} {key : κ} (h : Ascending compare (a :: rows))
    (hle : (compare key a.1).isLE = true) : find? compare key rows = none := by
  have hbeyond : find? compare key ([] ++ rows) = none :=
    find?_absent (by simp) fun row hr =>
      Std.TransCmp.lt_of_isLE_of_lt hle ((List.pairwise_cons.1 h).1 row hr)
  exact hbeyond

/-- Ascending tables whose look-ups find contents in a relation have rows in that relation, one by
one and under level keys. -/
theorem forall₂_of_find? {r : ν → ν → Prop} {other : List (κ × ν)} (h : Ascending compare rows)
    (ho : Ascending compare other)
    (hf : ∀ key, Option.Rel r (find? compare key rows) (find? compare key other)) :
    List.Forall₂ (fun a b => compare a.1 b.1 = .eq ∧ r a.2 b.2) rows other := by
  induction rows generalizing other with
  | nil =>
    cases other with
    | nil => exact .nil
    | cons b other =>
      have hb := hf b.1
      rw [find?_of_mem ho List.mem_cons_self Std.ReflCmp.compare_self] at hb
      cases hb
  | cons a rows ih =>
    have hfirst := hf a.1
    rw [find?_of_mem h List.mem_cons_self Std.ReflCmp.compare_self] at hfirst
    cases other with
    | nil => cases hfirst
    | cons b other =>
      have hsecond := hf b.1
      rw [find?_of_mem ho List.mem_cons_self Std.ReflCmp.compare_self] at hsecond
      have hrows := (List.pairwise_cons.1 h).2
      have hother := (List.pairwise_cons.1 ho).2
      -- The row of either head is found in the other table, so neither head is below the other.
      have level : compare a.1 b.1 = .eq := by
        cases hab : compare a.1 b.1 with
        | eq => rfl
        | lt =>
          rw [find?, hab] at hfirst
          cases hfirst
        | gt =>
          rw [find?, Std.OrientedCmp.lt_of_gt hab] at hsecond
          cases hsecond
      refine .cons ⟨level, ?_⟩ (ih hrows hother fun key => ?_)
      · rw [find?, level] at hfirst
        cases hfirst with
        | some hr => exact hr
      · have hkey := hf key
        rw [find?, find?, ← Std.TransCmp.congr_right level] at hkey
        cases hcmp : compare key a.1 with
        | gt =>
          rw [hcmp] at hkey
          exact hkey
        | lt | eq =>
          have hle : (compare key a.1).isLE = true := by rw [hcmp]; rfl
          have hle' : (compare key b.1).isLE = true := by rwa [← Std.TransCmp.congr_right level]
          rw [find?_beyond h hle, find?_beyond ho hle']
          exact .none

theorem eq_of_find?_eq [Std.LawfulEqCmp compare] {other : List (κ × ν)}
    (h : Ascending compare rows) (ho : Ascending compare other)
    (hf : ∀ key, find? compare key rows = find? compare key other) : rows = other := by
  have hrows := forall₂_of_find? (r := Eq) h ho fun key => by
    rw [hf key]
    cases find? compare key other with
    | none => exact .none
    | some v => exact .some rfl
  refine List.forall₂_eq_eq_eq ▸ hrows.imp fun a b ⟨level, heq⟩ => ?_
  exact Prod.ext (Std.LawfulEqCmp.eq_of_compare level) heq

end Ordered

/-! ## Rows of lists -/

section Lists

variable {α : Type} {rows : List (κ × List α)}

/-- The list in the row of a key; empty if there is no row. -/
def listAt (compare : κ → κ → Ordering) (key : κ) (rows : List (κ × List α)) : List α :=
  (find? compare key rows).getD []

/-- The rows with another list in the row of a key; a row is left out if its list is empty. -/
def putList (compare : κ → κ → Ordering) (key : κ) (items : List α) (rows : List (κ × List α)) :
    List (κ × List α) :=
  alter compare key (fun _ => if items.isEmpty then none else some items) rows

theorem put_append_eq_putList (items : List α) (x : α) :
    put compare key (items ++ [x]) rows = putList compare key (items ++ [x]) rows := by
  simp [put, putList]

variable [Std.TransCmp compare]

theorem listAt_of_mem (h : Ascending compare rows) {row : κ × List α} (hr : row ∈ rows)
    (level : compare key row.1 = .eq) : listAt compare key rows = row.2 := by
  simp [listAt, find?_of_mem h hr level]

theorem exists_of_mem_listAt (h : Ascending compare rows) {x : α}
    (hx : x ∈ listAt compare key rows) :
    ∃ row ∈ rows, compare key row.1 = .eq ∧ x ∈ row.2 := by
  cases hf : find? compare key rows with
  | none => simp [listAt, hf] at hx
  | some items =>
    obtain ⟨k, hk, level⟩ := exists_of_find? h hf
    exact ⟨(k, items), hk, level, by simpa [listAt, hf] using hx⟩

theorem listAt_sublist (h : Ascending compare rows) :
    (listAt compare key rows).Sublist (rows.flatMap Prod.snd) := by
  cases hf : find? compare key rows with
  | none => simp [listAt, hf]
  | some items =>
    obtain ⟨k, hk, _⟩ := exists_of_find? h hf
    rw [listAt, hf, List.flatMap_def]
    exact List.sublist_flatten_of_mem (List.mem_map_of_mem hk)

theorem nodup_listAt (h : Ascending compare rows) (hn : (rows.flatMap Prod.snd).Nodup) :
    (listAt compare key rows).Nodup := hn.sublist (listAt_sublist h)

theorem mem_flatMap_iff (h : Ascending compare rows) {x : α} :
    x ∈ rows.flatMap Prod.snd ↔ ∃ key, x ∈ listAt compare key rows := by
  rw [List.mem_flatMap]
  constructor
  · rintro ⟨row, hr, hx⟩
    exact ⟨row.1, by rwa [listAt_of_mem h hr Std.ReflCmp.compare_self]⟩
  · rintro ⟨key, hx⟩
    obtain ⟨row, hr, _, hx⟩ := exists_of_mem_listAt h hx
    exact ⟨row, hr, hx⟩

theorem listAt_putList (h : Ascending compare rows) (items : List α) (k : κ) :
    listAt compare k (putList compare key items rows) =
      if compare k key = .eq then items else listAt compare k rows := by
  rw [listAt, putList, find?_alter h]
  split
  · by_cases hi : items.isEmpty <;> simp_all
  · rfl

theorem putList_undone (h : Ascending compare rows) (ho : ∀ row ∈ rows, row.2 ≠ []) {items : List α}
    (hi : items ≠ []) :
    putList compare key (listAt compare key rows) (putList compare key items rows) = rows := by
  refine alter_undone h (fun _ => by simp [hi]) ?_
  rw [listAt]
  cases hf : find? compare key rows with
  | none => rfl
  | some old =>
    obtain ⟨k, hk, _⟩ := exists_of_find? h hf
    simpa using ho (k, old) hk

theorem mem_putList (h : Ascending compare rows) {items : List α} {row : κ × List α}
    (hr : row ∈ putList compare key items rows) :
    row ∈ rows ∨ compare key row.1 = .eq ∧ row.2 = items ∧ items ≠ [] := by
  have hnew {k : κ} (level : compare key k = .eq) {rest : List (κ × List α)}
      (hm : row ∈ consRow k (if items.isEmpty then none else some items) rest) :
      row ∈ rest ∨ compare key row.1 = .eq ∧ row.2 = items ∧ items ≠ [] := by
    rcases mem_consRow.1 hm with ⟨hc, rfl⟩ | hm
    · by_cases hi : items.isEmpty
      · simp [hi] at hc
      · rw [if_neg hi, Option.some.injEq] at hc
        exact .inr ⟨level, hc.symm, by simpa using hi⟩
    · exact .inl hm
  rw [putList] at hr
  cases split h key with
  | @absent pre post below above =>
    rw [alter_absent below above, List.mem_append] at hr
    rcases hr with hr | hr
    · exact .inl (List.mem_append_left _ hr)
    · exact (hnew Std.ReflCmp.compare_self hr).imp_left (List.mem_append_right _)
  | @present pre post k v below level above =>
    rw [alter_present below level, List.mem_append] at hr
    rcases hr with hr | hr
    · exact .inl (List.mem_append_left _ hr)
    · exact (hnew level hr).imp_left fun hm => List.mem_append_right _ (List.mem_cons_of_mem _ hm)

theorem ne_nil_of_mem_putList (h : Ascending compare rows) (ho : ∀ row ∈ rows, row.2 ≠ [])
    {items : List α} : ∀ row ∈ putList compare key items rows, row.2 ≠ [] := by
  intro row hr
  rcases mem_putList h hr with hr | ⟨_, hitems, hne⟩
  · exact ho row hr
  · exact hitems ▸ hne

/-- The number of rows of some sort of key changes only if the altered row comes or goes. -/
theorem countP_putList (h : Ascending compare rows) (ho : ∀ row ∈ rows, row.2 ≠ [])
    {p : κ → Bool} (hp : ∀ k, compare key k = .eq → p k = p key) (items : List α) :
    (putList compare key items rows).countP (fun row => p row.1) +
        (if (listAt compare key rows).isEmpty then 0 else if p key then 1 else 0) =
      rows.countP (fun row => p row.1) + if items.isEmpty then 0 else if p key then 1 else 0 := by
  rw [putList, listAt]
  cases split h key with
  | @absent pre post below above =>
    rw [alter_absent below above, find?_absent below above]
    by_cases hi : items.isEmpty
    · simp [hi, consRow]
    · simp only [hi, Bool.false_eq_true, if_false, consRow, List.countP_append, List.countP_cons,
        Option.getD_none, List.isEmpty_nil, if_true]
      omega
  | @present pre post k v below level above =>
    have hv : v.isEmpty = false := by
      simpa using ho (k, v) (by simp)
    rw [alter_present below level, find?_present below level]
    by_cases hi : items.isEmpty
    · simp only [hi, if_true, consRow, List.countP_append, List.countP_cons, Option.getD_some, hv,
        Bool.false_eq_true, if_false, hp k level]
      omega
    · simp only [hi, Bool.false_eq_true, if_false, consRow, List.countP_append, List.countP_cons,
        Option.getD_some, hv, hp k level]

/-- Where an item comes to stand under a key: in a new row, or at the end of the row of the key. -/
theorem putList_cases (h : Ascending compare rows) (key : κ) (x : α) : ∃ pre post,
    (∀ row ∈ pre, compare key row.1 = .gt) ∧ (∀ row ∈ post, compare key row.1 = .lt) ∧
    (rows = pre ++ post ∧
        putList compare key (listAt compare key rows ++ [x]) rows = pre ++ (key, [x]) :: post ∨
      ∃ k v, compare key k = .eq ∧ rows = pre ++ (k, v) :: post ∧
        putList compare key (listAt compare key rows ++ [x]) rows = pre ++ (k, v ++ [x]) :: post) := by
  cases split h key with
  | @absent pre post below above =>
    refine ⟨pre, post, below, above, .inl ⟨rfl, ?_⟩⟩
    simp [putList, listAt, find?_absent below above, alter_absent below above, consRow]
  | @present pre post k v below level above =>
    refine ⟨pre, post, below, above, .inr ⟨k, v, level, rfl, ?_⟩⟩
    simp [putList, listAt, find?_present below level, alter_present below level, consRow]

theorem filter_level (h : Ascending compare rows) :
    (rows.filter fun row => (compare key row.1).isEq).map Prod.snd =
      (find? compare key rows).toList := by
  cases split h key with
  | @absent pre post below above =>
    rw [find?_absent below above, List.filter_eq_nil_iff.2]
    · rfl
    · intro row hr
      rcases List.mem_append.1 hr with hr | hr
      · simp [below row hr]
      · simp [above row hr]
  | @present pre post k v below level above =>
    have hpre : pre.filter (fun row => (compare key row.1).isEq) = [] :=
      List.filter_eq_nil_iff.2 fun row hr => by simp [below row hr]
    have hpost : post.filter (fun row => (compare key row.1).isEq) = [] :=
      List.filter_eq_nil_iff.2 fun row hr => by simp [above row hr]
    rw [find?_present below level, List.filter_append, List.filter_cons, hpre, hpost]
    simp [level]

/-- What lists in rows hold together changes at one place, where the list of the altered row is. -/
theorem exists_flatMap_putList (h : Ascending compare rows) (key : κ) : ∃ before after,
    rows.flatMap Prod.snd = before ++ listAt compare key rows ++ after ∧
    ∀ items, (putList compare key items rows).flatMap Prod.snd = before ++ items ++ after := by
  obtain ⟨before, after, hold, hnew⟩ :=
    exists_flatMap_alter (g := fun _ items => items) h key fun _ _ => rfl
  refine ⟨before, after, hold.trans ?_, fun items => (hnew _).trans ?_⟩
  · rw [listAt]
    cases find? compare key rows <;> rfl
  · by_cases hi : items.isEmpty <;> simp_all

theorem flatMap_push_perm (h : Ascending compare rows) (x : α) :
    ((putList compare key (listAt compare key rows ++ [x]) rows).flatMap Prod.snd).Perm
      (x :: rows.flatMap Prod.snd) := by
  obtain ⟨before, after, hold, hnew⟩ := exists_flatMap_putList h key
  rw [hold, hnew, ← List.append_assoc before, List.append_assoc _ [x]]
  exact List.perm_middle

theorem flatMap_pull_perm [DecidableEq α] (h : Ascending compare rows) {x : α}
    (hx : x ∈ listAt compare key rows) :
    ((putList compare key ((listAt compare key rows).erase x) rows).flatMap Prod.snd).Perm
      ((rows.flatMap Prod.snd).erase x) := by
  obtain ⟨before, after, hold, hnew⟩ := exists_flatMap_putList h key
  have hback : (x :: (before ++ (listAt compare key rows).erase x ++ after)).Perm
      (before ++ listAt compare key rows ++ after) := by
    rw [List.append_assoc, List.append_assoc]
    refine List.perm_middle.symm.trans (List.Perm.append_left _ ?_)
    exact (List.perm_cons_erase hx).symm.append_right after
  rw [hold, hnew]
  exact (List.cons_perm_iff_perm_erase.1 hback).2

end Lists

end IndexedStore.OrderedTable
