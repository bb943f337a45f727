import IndexedStore.Index.KeyRows
import IndexedStore.Proofs.Keys
import IndexedStore.Proofs.Tables

/-!
# What key rows hold

Every handle stands in the row of its entry's key, and the rows with a wildcard in their key are
counted. An addition puts a handle at the end of its row, a removal takes it out of there, and all
other rows stay as they are.
-/
namespace IndexedStore.KeyRows

variable {r : KeyRows} {source after : Source} {h : Handle} {e probe : Entry} {key : Key}

/-- Every handle stands in the row of its entry's key, and the counters agree with the rows. -/
structure Filed (source : Source) (r : KeyRows) : Prop where
  ascending : OrderedTable.Ascending Key.compare r.rows
  occupied : ∀ row ∈ r.rows, row.2 ≠ []
  placed : ∀ row ∈ r.rows, ∀ h ∈ row.2, ∃ e, source h = some e ∧ r.projection.Fits e ∧
    Key.compare (r.projection.keyOf e) row.1 = .eq
  partials : r.partialRows = r.rows.countP fun row => row.1.isPartial
  entries : r.tally.entries = r.handles.length

def pull (r : KeyRows) (key : Key) (h : Handle) : KeyRows :=
  let gone := ((r.row key).erase h).isEmpty
  { r with
    rows := OrderedTable.putList Key.compare key ((r.row key).erase h) r.rows
    partialRows := if gone && key.isPartial then r.partialRows - 1 else r.partialRows
    tally := (if gone then r.tally.removeKey else r.tally).removeEntry }

theorem row_eq_listAt : r.row key = OrderedTable.listAt Key.compare key r.rows := rfl

theorem push_rows : (r.push key h).rows =
    OrderedTable.putList Key.compare key (r.row key ++ [h]) r.rows :=
  OrderedTable.put_append_eq_putList _ _

theorem push_entries : (r.push key h).tally.entries = r.tally.entries + 1 := by
  simp only [push, Tally.addEntry]
  split <;> rfl

theorem pull_entries : (r.pull key h).tally.entries = r.tally.entries - 1 := by
  simp only [pull, Tally.removeEntry]
  split <;> rfl

theorem empty_filed (π : Projection) (unique : Bool) : (empty π unique).Filed source where
  ascending := List.Pairwise.nil
  occupied := by simp [empty]
  placed := by simp [empty]
  partials := rfl
  entries := rfl

theorem clear_filed (r : KeyRows) : r.clear.Filed source where
  ascending := List.Pairwise.nil
  occupied := by simp [clear]
  placed := by simp [clear]
  partials := rfl
  entries := rfl

theorem row_congr {a b : Key} (h : Key.compare a b = .eq) : r.row a = r.row b := by
  rw [row, row, OrderedTable.find?_congr h]

namespace Filed

variable (hf : r.Filed source)
include hf

theorem mem_handles_iff : h ∈ r.handles ↔ ∃ key, h ∈ r.row key :=
  OrderedTable.mem_flatMap_iff hf.ascending

theorem exists_of_mem_row (hh : h ∈ r.row key) : ∃ e, source h = some e ∧ r.projection.Fits e ∧
    Key.compare (r.projection.keyOf e) key = .eq := by
  obtain ⟨row, hr, level, hm⟩ := OrderedTable.exists_of_mem_listAt hf.ascending hh
  obtain ⟨e, hs, hfit, he⟩ := hf.placed row hr h hm
  exact ⟨e, hs, hfit, Std.TransCmp.eq_trans he (Std.OrientedCmp.eq_symm level)⟩

theorem mem_row_iff (hs : source h = some e) :
    h ∈ r.row key ↔ h ∈ r.handles ∧ Key.compare (r.projection.keyOf e) key = .eq := by
  have level {k : Key} (hk : h ∈ r.row k) : Key.compare (r.projection.keyOf e) k = .eq := by
    obtain ⟨e', he', -, hlevel⟩ := hf.exists_of_mem_row hk
    obtain rfl := Option.some.inj (hs.symm.trans he')
    exact hlevel
  constructor
  · exact fun hh => ⟨hf.mem_handles_iff.2 ⟨key, hh⟩, level hh⟩
  · rintro ⟨hh, hkey⟩
    obtain ⟨k, hk⟩ := hf.mem_handles_iff.1 hh
    rwa [row_congr (Std.TransCmp.eq_trans (Std.OrientedCmp.eq_symm hkey) (level hk))]

theorem exists_entry (hh : h ∈ r.handles) : ∃ e, source h = some e ∧ r.projection.Fits e := by
  obtain ⟨key, hr⟩ := hf.mem_handles_iff.1 hh
  obtain ⟨e, hs, hfit, _⟩ := hf.exists_of_mem_row hr
  exact ⟨e, hs, hfit⟩

theorem row_push (k : Key) : (r.push key h).row k =
    if Key.compare k key = .eq then r.row key ++ [h] else r.row k := by
  rw [row_eq_listAt, push_rows, OrderedTable.listAt_putList hf.ascending]
  rfl

theorem row_pull (k : Key) : (r.pull key h).row k =
    if Key.compare k key = .eq then (r.row key).erase h else r.row k := by
  rw [row_eq_listAt, pull, OrderedTable.listAt_putList hf.ascending]
  rfl

theorem handles_push : (r.push key h).handles.Perm (h :: r.handles) := by
  rw [handles, push_rows]
  exact OrderedTable.flatMap_push_perm hf.ascending h

theorem handles_pull (hh : h ∈ r.row key) : (r.pull key h).handles.Perm (r.handles.erase h) :=
  OrderedTable.flatMap_pull_perm hf.ascending hh

theorem countP_isPartial (key : Key) (items : List Handle) :
    (OrderedTable.putList Key.compare key items r.rows).countP (fun row => row.1.isPartial) +
        (if (r.row key).isEmpty then 0 else if key.isPartial then 1 else 0) =
      r.partialRows + if items.isEmpty then 0 else if key.isPartial then 1 else 0 := by
  rw [hf.partials]
  exact OrderedTable.countP_putList hf.ascending hf.occupied
    (fun k level => (Key.isPartial_eq level).symm) items

theorem placed_putList (items : List Handle) (hi : ∀ h ∈ items, ∃ e, source h = some e ∧
      r.projection.Fits e ∧ Key.compare (r.projection.keyOf e) key = .eq) :
    ∀ row ∈ OrderedTable.putList Key.compare key items r.rows, row.2 ≠ [] ∧
      ∀ h ∈ row.2, ∃ e, source h = some e ∧ r.projection.Fits e ∧
        Key.compare (r.projection.keyOf e) row.1 = .eq := by
  intro row hr
  rcases OrderedTable.mem_putList hf.ascending hr with hr | ⟨level, hitems, hne⟩
  · exact ⟨hf.occupied row hr, hf.placed row hr⟩
  · refine ⟨hitems ▸ hne, fun g hg => ?_⟩
    obtain ⟨e, hs, hfit, he⟩ := hi g (hitems ▸ hg)
    exact ⟨e, hs, hfit, Std.TransCmp.eq_trans he level⟩

theorem push (hs : source h = some e) (hfit : r.projection.Fits e) :
    (r.push (r.projection.keyOf e) h).Filed source := by
  have hrows := hf.placed_putList (r.row (r.projection.keyOf e) ++ [h]) <| by
    intro g hg
    rcases List.mem_append.1 hg with hg | hg
    · exact hf.exists_of_mem_row hg
    · obtain rfl := List.mem_singleton.1 hg
      exact ⟨e, hs, hfit, Std.ReflCmp.compare_self⟩
  constructor
  · exact OrderedTable.ascending_alter hf.ascending
  · rw [push_rows]
    exact fun row hr => (hrows row hr).1
  · rw [push_rows]
    exact fun row hr => (hrows row hr).2
  · have hcount := hf.countP_isPartial (r.projection.keyOf e)
      (r.row (r.projection.keyOf e) ++ [h])
    have hne : (r.row (r.projection.keyOf e) ++ [h]).isEmpty = false := by simp
    rw [push_rows]
    simp only [KeyRows.push]
    cases hg : (r.row (r.projection.keyOf e)).isEmpty <;>
      cases hp : (r.projection.keyOf e).isPartial <;>
      simp only [hne, hg, hp, Bool.and_false, Bool.and_true, Bool.false_eq_true, if_true,
        if_false] at hcount ⊢ <;> omega
  · rw [push_entries, hf.entries, hf.handles_push.length_eq, List.length_cons]

theorem pull (hh : h ∈ r.row key) : (r.pull key h).Filed source := by
  have hrows := hf.placed_putList ((r.row key).erase h) fun g hg =>
    hf.exists_of_mem_row (List.mem_of_mem_erase hg)
  constructor
  · exact OrderedTable.ascending_alter hf.ascending
  · exact fun row hr => (hrows row hr).1
  · exact fun row hr => (hrows row hr).2
  · have hcount := hf.countP_isPartial key ((r.row key).erase h)
    have hne : (r.row key).isEmpty = false := by
      simpa using List.ne_nil_of_mem hh
    simp only [KeyRows.pull]
    cases hg : ((r.row key).erase h).isEmpty <;> cases hp : key.isPartial <;>
      simp only [hne, hg, hp, Bool.and_false, Bool.and_true, Bool.false_eq_true, if_true,
        if_false] at hcount ⊢ <;> omega
  · have hm : h ∈ r.handles := hf.mem_handles_iff.2 ⟨key, hh⟩
    rw [pull_entries, hf.entries, (hf.handles_pull hh).length_eq, List.length_erase_of_mem hm]

theorem congr (hk : ∀ h ∈ r.handles, ∀ e, source h = some e → ∃ e', after h = some e' ∧
    r.projection.Fits e' ∧ Key.compare (r.projection.keyOf e) (r.projection.keyOf e') = .eq) :
    r.Filed after where
  ascending := hf.ascending
  occupied := hf.occupied
  placed := by
    intro row hr g hg
    obtain ⟨e, hs, _, he⟩ := hf.placed row hr g hg
    obtain ⟨e', hs', hfit, level⟩ := hk g (List.mem_flatMap.2 ⟨row, hr, hg⟩) e hs
    exact ⟨e', hs', hfit, Std.TransCmp.eq_trans (Std.OrientedCmp.eq_symm level) he⟩
  partials := hf.partials
  entries := hf.entries

theorem remove?_eq (hfit : r.projection.Fits e) : r.remove? h e = .ok
    (if h ∈ r.row (r.projection.keyOf e) then some (r.pull (r.projection.keyOf e) h) else none) := by
  rw [remove?, Projection.project_eq hfit, Checked.ok_bind]
  by_cases hh : h ∈ r.row (r.projection.keyOf e)
  · have hcount := hf.countP_isPartial (r.projection.keyOf e)
      ((r.row (r.projection.keyOf e)).erase h)
    have hne : (r.row (r.projection.keyOf e)).isEmpty = false := by
      simpa using List.ne_nil_of_mem hh
    simp only [hh, not_true_eq_false, if_false, if_true, KeyRows.pull, Checked.pure_eq_ok]
    cases hg : ((r.row (r.projection.keyOf e)).erase h).isEmpty with
    | false => simp [hg, OrderedTable.putList]
    | true =>
      cases hp : (r.projection.keyOf e).isPartial with
      | false => simp [hg, OrderedTable.putList]
      | true =>
        have hd : decrement r.partialRows = .ok (r.partialRows - 1) := by
          simp only [hne, hg, hp, if_true, Bool.false_eq_true, if_false] at hcount
          exact Checked.decrement_eq (by omega)
        simp [hg, hd, OrderedTable.putList]
  · simp [hh]

end Filed

/-- The other handle under the key of an entry, which a unique index does not let it share. -/
def rival? (r : KeyRows) (h : Handle) (e : Entry) : Option Handle :=
  if r.unique then (r.row (r.projection.keyOf e)).find? (· ≠ h) else none

theorem Filed.rival?_eq_none_iff (hf : r.Filed source)
    (hc : ∀ k, k ∈ r.handles ↔ (source k).isSome) :
    r.rival? h e = none ↔ (r.unique = true → ∀ k ≠ h, ∀ other, source k = some other →
      Key.compare (r.projection.keyOf e) (r.projection.keyOf other) ≠ .eq) := by
  rw [rival?]
  split
  next hu =>
    simp only [List.find?_eq_none, decide_eq_true_eq, hu, true_imp_iff]
    constructor
    · intro hnone k hne other hk level
      exact hnone k ((hf.mem_row_iff hk).2
        ⟨(hc k).2 (by simp [hk]), Std.OrientedCmp.eq_symm level⟩) hne
    · intro hnone k hm hne
      obtain ⟨other, hk, _, level⟩ := hf.exists_of_mem_row hm
      exact hnone k hne other hk (Std.OrientedCmp.eq_symm level)
  next hu => simp [hu]

/-- An addition is refused for a rival only; otherwise the handle comes last in its row. -/
theorem add_eq (hfit : r.projection.Fits e) : r.add h e = .ok (match r.rival? h e with
    | some rival => .error (.duplicateKey rival)
    | none => .ok (r.push (r.projection.keyOf e) h)) := by
  rw [add, Projection.project_eq hfit, Checked.ok_bind]
  cases hu : r.unique with
  | false => simp [rival?, hu]
  | true =>
    rw [if_pos rfl, rival?, if_pos hu]
    cases (r.row (r.projection.keyOf e)).find? (· ≠ h) <;> rfl

theorem add_ok {r' : KeyRows} (hfit : r.projection.Fits e)
    (hadd : r.add h e = .ok (.ok r')) : r' = r.push (r.projection.keyOf e) h := by
  rw [add_eq hfit, Except.ok.injEq] at hadd
  split at hadd
  · cases hadd
  · exact (Except.ok.inj hadd).symm

theorem duplicateKey_of_refused {why : Rejection} (hfit : r.projection.Fits e)
    (hadd : r.add h e = .ok (.error why)) : ∃ holder, why = .duplicateKey holder := by
  rw [add_eq hfit, Except.ok.injEq] at hadd
  cases hrival : r.rival? h e with
  | none =>
    rw [hrival] at hadd
    cases hadd
  | some holder =>
    rw [hrival] at hadd
    exact ⟨holder, (Except.error.inj hadd).symm⟩

end IndexedStore.KeyRows
