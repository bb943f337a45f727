import IndexedStore.Index.ScanList
import IndexedStore.Proofs.Keys

/-!
# What scan lists hold

Handles in order of arrival. A probe visits those whose entries agree with it, in the order of the
list.
-/
namespace IndexedStore.ScanList

variable {l : ScanList} {source after : Source} {h : Handle} {e probe : Entry}

/-- Every handle leads to an entry with a key, and the counter agrees with the list. -/
structure Filed (source : Source) (l : ScanList) : Prop where
  keyed : ∀ h ∈ l.handles, ∃ e, source h = some e ∧ l.projection.Fits e
  entries : l.tally.entries = l.handles.length

def pull (l : ScanList) (h : Handle) : ScanList :=
  { l with handles := l.handles.erase h, tally := l.tally.removeEntry }

theorem empty_filed (π : Projection) : (empty π).Filed source where
  keyed := by simp [empty]
  entries := rfl

theorem clear_filed (l : ScanList) : l.clear.Filed source where
  keyed := by simp [clear]
  entries := rfl

theorem remove?_eq : l.remove? h = if h ∈ l.handles then some (l.pull h) else none := rfl

namespace Filed

variable (hf : l.Filed source)
include hf

theorem add (hs : source h = some e) (hfit : l.projection.Fits e) : (l.add h).Filed source where
  keyed := by
    intro k hk
    rcases List.mem_append.1 hk with hk | hk
    · exact hf.keyed k hk
    · rw [List.mem_singleton.1 hk]
      exact ⟨e, hs, hfit⟩
  entries := by
    simp [ScanList.add, Tally.addEntry, hf.entries]

theorem pull (hh : h ∈ l.handles) : (l.pull h).Filed source where
  keyed := fun k hk => hf.keyed k (List.mem_of_mem_erase hk)
  entries := by
    simp [ScanList.pull, Tally.removeEntry, hf.entries, List.length_erase_of_mem hh]

theorem congr (hk : ∀ h ∈ l.handles, ∃ e, after h = some e ∧ l.projection.Fits e) :
    l.Filed after where
  keyed := hk
  entries := hf.entries

theorem reaches_eq (hfit : l.projection.Fits probe) (hh : h ∈ l.handles) :
    l.projection.reaches source probe h = .ok (l.projection.meets source probe h) := by
  obtain ⟨e, hs, he⟩ := hf.keyed h hh
  exact Projection.reaches_eq hfit (by rw [hs]; rintro _ ⟨⟩; exact he)

theorem slice_eq (hfit : l.projection.Fits probe) : l.slice source probe = .ok
    (l.handles.filter (l.projection.meets source probe)) :=
  keep_eq_filter fun _ hh => hf.reaches_eq hfit hh

theorem get_eq (hfit : l.projection.Fits probe) : l.get source probe = .ok
    (l.handles.filter (l.projection.meets source probe)).head? := by
  rw [get, Checked.findM?_eq_find? fun h hh => hf.reaches_eq hfit hh, List.head?_filter]

end Filed

end IndexedStore.ScanList
