import IndexedStore.OrderedTable

/-!
# Laws of ordered tables

An alteration keeps the order of the rows, and a look-up after it finds the new content under the
altered key and the old content under every other.
-/
namespace IndexedStore.OrderedTable

variable {κ ν : Type} (compare : κ → κ → Ordering)

def Ascending (rows : List (κ × ν)) : Prop :=
  rows.Pairwise fun a b => compare a.1 b.1 = .lt

variable {compare}

theorem mem_consRow {key : κ} {content : Option ν} {rows : List (κ × ν)} {row : κ × ν} :
    row ∈ consRow key content rows ↔ (content = some row.2 ∧ row.1 = key) ∨ row ∈ rows := by
  obtain ⟨k, v⟩ := row
  cases content with
  | none => simp [consRow]
  | some c => simp [consRow, and_comm, eq_comm]

theorem mem_alter {key : κ} {f : Option ν → Option ν} {rows : List (κ × ν)} {row : κ × ν}
    (h : row ∈ alter compare key f rows) : row.1 = key ∨ row.1 ∈ rows.map Prod.fst := by
  induction rows with
  | nil =>
    rcases mem_consRow.1 h with ⟨_, hk⟩ | hr
    · exact .inl hk
    · cases hr
  | cons head rows ih =>
    obtain ⟨k, v⟩ := head
    unfold alter at h
    split at h
    · rcases mem_consRow.1 h with ⟨_, hk⟩ | hr
      · exact .inl hk
      · exact .inr (List.mem_map_of_mem hr)
    · rcases mem_consRow.1 h with ⟨_, hk⟩ | hr
      · exact .inr (by simp [hk])
      · exact .inr (by simp only [List.map_cons, List.mem_cons]; exact .inr (List.mem_map_of_mem hr))
    · rcases List.mem_cons.1 h with rfl | hr
      · exact .inr (by simp)
      · rcases ih hr with hk | hm
        · exact .inl hk
        · exact .inr (by simp only [List.map_cons, List.mem_cons]; exact .inr hm)

theorem ascending_consRow {key : κ} {content : Option ν} {rows : List (κ × ν)}
    (h : Ascending compare rows) (below : ∀ row ∈ rows, compare key row.1 = .lt) :
    Ascending compare (consRow key content rows) := by
  cases content with
  | none => exact h
  | some c => exact List.pairwise_cons.2 ⟨below, h⟩

theorem find?_of_below {key : κ} {rows : List (κ × ν)}
    (below : ∀ row ∈ rows, compare key row.1 = .lt) : find? compare key rows = none := by
  cases rows with
  | nil => rfl
  | cons head rows => simp [find?, below head (by simp)]

variable [Std.TransCmp compare]

theorem ascending_alter {key : κ} {f : Option ν → Option ν} {rows : List (κ × ν)}
    (h : Ascending compare rows) : Ascending compare (alter compare key f rows) := by
  induction rows with
  | nil => exact ascending_consRow h (by simp)
  | cons head rows ih =>
    obtain ⟨k, v⟩ := head
    have ⟨above, rest⟩ := List.pairwise_cons.1 h
    unfold alter
    split
    next hlt =>
      refine ascending_consRow h fun row hr => ?_
      rcases List.mem_cons.1 hr with rfl | hr
      · exact hlt
      · exact Std.TransCmp.lt_trans hlt (above row hr)
    next => exact ascending_consRow rest above
    next hgt =>
      refine List.pairwise_cons.2 ⟨fun row hr => ?_, ih rest⟩
      rcases mem_alter hr with hk | hm
      · rw [hk]
        exact Std.OrientedCmp.lt_of_gt hgt
      · obtain ⟨other, ho, he⟩ := List.mem_map.1 hm
        rw [← he]
        exact above other ho

theorem find?_alter {key other : κ} {f : Option ν → Option ν} {rows : List (κ × ν)}
    (h : Ascending compare rows) :
    find? compare other (alter compare key f rows) =
      if compare other key = .eq then f (find? compare key rows) else find? compare other rows := by
  induction rows with
  | nil =>
    simp only [alter, find?]
    cases f none with
    | none => simp [consRow, find?]
    | some c => simp only [consRow, find?]; cases compare other key <;> rfl
  | cons head rows ih =>
    obtain ⟨k, v⟩ := head
    have ⟨above, rest⟩ := List.pairwise_cons.1 h
    have under {x : κ} (hx : compare x k = .lt) : find? compare x rows = none :=
      find?_of_below fun row hr => Std.TransCmp.lt_trans hx (above row hr)
    unfold alter
    split
    next hlt =>
      rw [show find? compare key ((k, v) :: rows) = none by simp [find?, hlt]]
      cases ho : compare other key with
      | lt =>
        have hk : compare other k = .lt := Std.TransCmp.lt_trans ho hlt
        cases f none <;> simp [consRow, find?, ho, hk]
      | eq =>
        have hk : compare other k = .lt := Std.TransCmp.lt_of_eq_of_lt ho hlt
        cases f none <;> simp [consRow, find?, ho, hk]
      | gt => cases f none <;> simp [consRow, find?, ho]
    next heq =>
      rw [show find? compare key ((k, v) :: rows) = some v by simp [find?, heq],
        Std.TransCmp.congr_right heq]
      cases ho : compare other k with
      | lt => cases f (some v) <;> simp [consRow, find?, ho, under ho]
      | eq =>
        have hn : find? compare other rows = none :=
          find?_of_below fun row hr => Std.TransCmp.lt_of_eq_of_lt ho (above row hr)
        cases f (some v) <;> simp [consRow, find?, ho, hn]
      | gt => cases f (some v) <;> simp [consRow, find?, ho]
    next hgt =>
      have hkk : compare k key = .lt := Std.OrientedCmp.lt_of_gt hgt
      rw [show find? compare key ((k, v) :: rows) = find? compare key rows by simp [find?, hgt]]
      cases ho : compare other k with
      | lt => simp [find?, ho, Std.TransCmp.lt_trans ho hkk]
      | eq => simp [find?, ho, Std.TransCmp.lt_of_eq_of_lt ho hkk]
      | gt => simp only [find?, ho]; exact ih rest

end IndexedStore.OrderedTable
