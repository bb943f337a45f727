import IndexedStore.Proofs.IndexRuns
import Mathlib.Data.List.Dedup

/-!
# Tallies

The counters of an index are right after every run on it: as many entries as handles, as many keys
as there are hashes, keys, groups or handles held, and the most handles that were held at once. So a
counter is never taken down from zero.
-/
namespace IndexedStore

namespace Key

/-- How many keys there are, level ones counted once. -/
def distinct : List Key → Nat
  | [] => 0
  | key :: rest =>
    if rest.any fun k => (key.compare k).isEq then distinct rest else distinct rest + 1

theorem distinct_eq_length {keys apart : List Key}
    (hapart : apart.Pairwise fun a b => Key.compare a b ≠ .eq)
    (hfound : ∀ k ∈ keys, ∃ a ∈ apart, Key.compare k a = .eq)
    (hused : ∀ a ∈ apart, ∃ k ∈ keys, Key.compare k a = .eq) : distinct keys = apart.length := by
  induction keys generalizing apart with
  | nil =>
    cases apart with
    | nil => rfl
    | cons a _ =>
      obtain ⟨_, hk, -⟩ := hused a List.mem_cons_self
      cases hk
  | cons key rest ih =>
    obtain ⟨hkey, hfound⟩ := List.forall_mem_cons.1 hfound
    rw [distinct]
    split
    next hagain =>
      obtain ⟨twin, htwin, heq⟩ := List.any_eq_true.1 hagain
      refine ih hapart hfound fun a ha => ?_
      obtain ⟨k, hk, level⟩ := hused a ha
      obtain rfl | hk := List.mem_cons.1 hk
      · exact ⟨twin, htwin, Std.TransCmp.eq_trans
          (Std.OrientedCmp.eq_symm (Ordering.isEq_iff_eq_eq.1 heq)) level⟩
      · exact ⟨k, hk, level⟩
    next hfirst =>
      obtain ⟨own, hown, hlevel⟩ := hkey
      -- without the key's own one, the others count the rest
      have hperm := List.perm_cons_erase hown
      have hsplit := List.pairwise_cons.1 ((hperm.pairwise_iff fun hab hba =>
        hab (Std.OrientedCmp.eq_symm hba)).1 hapart)
      rw [hperm.length_eq, List.length_cons]
      refine congrArg (· + 1) (ih hsplit.2 (fun k hk => ?_) fun a ha => ?_)
      · obtain ⟨a, ha, level⟩ := hfound k hk
        obtain rfl | ha := List.mem_cons.1 (hperm.mem_iff.1 ha)
        · refine absurd (List.any_eq_true.2 ⟨k, hk, ?_⟩) hfirst
          exact Ordering.isEq_iff_eq_eq.2
            (Std.TransCmp.eq_trans hlevel (Std.OrientedCmp.eq_symm level))
        · exact ⟨a, ha, level⟩
      · obtain ⟨k, hk, level⟩ := hused a (hperm.mem_iff.2 (List.mem_cons_of_mem _ ha))
        obtain rfl | hk := List.mem_cons.1 hk
        · exact absurd (Std.TransCmp.eq_trans (Std.OrientedCmp.eq_symm hlevel) level)
            (hsplit.1 a ha)
        · exact ⟨k, hk, level⟩

end Key

namespace Index

variable {i j : Index} {source : Source} {shape : Shape} {placed : Arrivals} {h : Handle}
  {e : Entry}

/-- How many keys the handles that are placed have in an index: hashes in a hash index, keys in a
tree, group keys in a heap. In an array index every handle has a key of its own, and a list has no
keys. -/
def keyCount (placed : Arrivals) : Index → Nat
  | .list _ => 0
  | .hash c => (placed.map fun item => (c.projection.keyOf item.2).hash).dedup.length
  | .tree r => Key.distinct (placed.map fun item => r.projection.keyOf item.2)
  | .array _ => placed.length
  | .heap g => Key.distinct (placed.map fun item => g.projection.keyOf item.2)

def rowCount : Index → Nat
  | .list _ => 0
  | .hash c => c.chains.length
  | .tree r => r.rows.length
  | .array g => g.occupied.length
  | .heap g => g.groups.length

/-! ## Rows and keys -/

theorem rowCount_hash {c : HashChains} (hi : (hash c).Carries shape placed) :
    c.chains.length = (hash c).keyCount placed := by
  have hf : c.Filed placed.known := hi.filed
  have hnodup : (c.chains.map Prod.fst).Nodup := OrderedTable.nodup_keys hf.ascending
  rw [keyCount, ← List.length_map Prod.fst]
  refine ((List.perm_ext_iff_of_nodup hnodup (List.nodup_dedup _)).2 fun k => ?_).length_eq
  rw [List.mem_dedup, List.mem_map, List.mem_map]
  constructor
  · rintro ⟨row, hr, rfl⟩
    obtain ⟨h, hh⟩ := List.exists_mem_of_ne_nil _ (hf.occupied row hr)
    have hchain : c.chain row.1 = row.2 :=
      OrderedTable.listAt_of_mem hf.ascending hr Std.ReflCmp.compare_self
    obtain ⟨e, he, -, hhash⟩ := hf.placed row.1 h (hchain ▸ hh)
    exact ⟨(h, e), Arrivals.mem_of_known he, hhash⟩
  · rintro ⟨⟨h, e⟩, hm, rfl⟩
    have hchain := (hf.mem_chain_iff ((Arrivals.known_eq_some_iff hi.nodup).2 hm)).2
      ⟨hi.mem_handles_iff.2 ⟨e, hm⟩, rfl⟩
    obtain ⟨row, hr, level, -⟩ := OrderedTable.exists_of_mem_listAt hf.ascending hchain
    exact ⟨row, hr, (Std.LawfulEqCmp.eq_of_compare level).symm⟩

theorem rowCount_tree {r : KeyRows} (hi : (tree r).Carries shape placed) :
    r.rows.length = (tree r).keyCount placed := by
  have hf : r.Filed placed.known := hi.filed
  rw [keyCount, ← List.length_map Prod.fst]
  refine (Key.distinct_eq_length ?_ (fun k hk => ?_) fun a ha => ?_).symm
  · rw [List.pairwise_map]
    exact hf.ascending.imp fun hlt heq => by simp [heq] at hlt
  · obtain ⟨⟨h, e⟩, hm, rfl⟩ := List.mem_map.1 hk
    have hrow := (hf.mem_row_iff ((Arrivals.known_eq_some_iff hi.nodup).2 hm)).2
      ⟨hi.mem_handles_iff.2 ⟨e, hm⟩, Std.ReflCmp.compare_self⟩
    obtain ⟨row, hr, level, -⟩ := OrderedTable.exists_of_mem_listAt hf.ascending hrow
    exact ⟨row.1, List.mem_map_of_mem hr, level⟩
  · obtain ⟨row, hr, rfl⟩ := List.mem_map.1 ha
    obtain ⟨h, hh⟩ := List.exists_mem_of_ne_nil _ (hf.occupied row hr)
    obtain ⟨e, he, -, level⟩ := hf.placed row hr h hh
    exact ⟨_, List.mem_map_of_mem (Arrivals.mem_of_known he), level⟩

theorem rowCount_heap {g : GroupHeaps} (hi : (heap g).Carries shape placed) :
    g.groups.length = (heap g).keyCount placed := by
  have hf : g.Filed placed.known := hi.filed
  rw [keyCount, ← List.length_map Group.key]
  refine (Key.distinct_eq_length ?_ (fun k hk => ?_) fun a ha => ?_).symm
  · rw [List.pairwise_map]
    exact hf.apart
  · obtain ⟨⟨h, e⟩, hm, rfl⟩ := List.mem_map.1 hk
    obtain ⟨group, hg, hh⟩ := GroupHeaps.mem_handles_iff.1 (hi.mem_handles_iff.2 ⟨e, hm⟩)
    obtain ⟨item, hitem, rfl, x, hx, -, level, -⟩ := hf.exists_bears hg hh
    obtain rfl := Arrivals.eq_of_mem hi.nodup (Arrivals.mem_of_known hx) hm
    exact ⟨group.key, List.mem_map_of_mem hg, level⟩
  · obtain ⟨group, hg, rfl⟩ := List.mem_map.1 ha
    have hkept := hf.kept group hg
    obtain ⟨e, he, -, level, -⟩ := hkept.bears _ (Array.getElem_mem hkept.occupied)
    exact ⟨_, List.mem_map_of_mem (Arrivals.mem_of_known he), level⟩

theorem Carries.rowCount_eq (hi : i.Carries shape placed) : i.rowCount = i.keyCount placed := by
  cases i with
  | list l => rfl
  | hash c => exact rowCount_hash hi
  | tree r => exact rowCount_tree hi
  | array g =>
    rw [keyCount, hi.length_placed, rowCount, handles, AddressGrid.handles, List.length_map]
  | heap g => exact rowCount_heap hi

end Index

/-! ## Counters in step with the rows -/

namespace OrderedTable

variable {κ α : Type} {compare : κ → κ → Ordering} [Std.TransCmp compare]
  {rows : List (κ × List α)}

theorem length_putList (h : Ascending compare rows) (ho : ∀ row ∈ rows, row.2 ≠ []) (key : κ)
    (items : List α) : (putList compare key items rows).length +
        (if (listAt compare key rows).isEmpty then 0 else 1) =
      rows.length + if items.isEmpty then 0 else 1 := by
  simpa using countP_putList (p := fun _ => true) h ho (fun _ _ => rfl) items

theorem length_push (h : Ascending compare rows) (ho : ∀ row ∈ rows, row.2 ≠ []) (key : κ) (x : α) :
    (putList compare key (listAt compare key rows ++ [x]) rows).length =
      rows.length + if (listAt compare key rows).isEmpty then 1 else 0 := by
  have hlength := length_putList h ho key (listAt compare key rows ++ [x])
  have hne : (listAt compare key rows ++ [x]).isEmpty = false := by simp
  rw [hne] at hlength
  split at hlength <;> simp_all

/-- A row goes with its last item. -/
theorem length_pull [DecidableEq α] (h : Ascending compare rows) (ho : ∀ row ∈ rows, row.2 ≠ [])
    {key : κ} {x : α} (hx : x ∈ listAt compare key rows) :
    (putList compare key ((listAt compare key rows).erase x) rows).length =
      rows.length - if ((listAt compare key rows).erase x).isEmpty then 1 else 0 := by
  have hlength := length_putList h ho key ((listAt compare key rows).erase x)
  have hne : (listAt compare key rows).isEmpty = false := by simpa using List.ne_nil_of_mem hx
  rw [hne] at hlength
  cases hgone : ((listAt compare key rows).erase x).isEmpty <;> rw [hgone] at hlength <;>
    simp only [Bool.false_eq_true, if_true, if_false] at hlength ⊢ <;> omega

end OrderedTable

namespace HashChains

variable {c : HashChains} {source : Source} {hash : UInt32} {h : Handle}

theorem push_keys : (c.push hash h).tally.keys =
    c.tally.keys + if (c.chain hash).isEmpty then 1 else 0 := by
  simp only [push]
  split <;> rfl

theorem pull_keys : (c.pull hash h).tally.keys =
    c.tally.keys - if ((c.chain hash).erase h).isEmpty then 1 else 0 := by
  simp only [pull]
  split <;> rfl

theorem Filed.keys_push (hf : c.Filed source) (hkeys : c.tally.keys = c.chains.length) :
    (c.push hash h).tally.keys = (c.push hash h).chains.length := by
  rw [push_keys, push_chains, chain_eq_listAt,
    OrderedTable.length_push hf.ascending hf.occupied, hkeys]

theorem Filed.keys_pull (hf : c.Filed source) (hkeys : c.tally.keys = c.chains.length)
    (hh : h ∈ c.chain hash) : (c.pull hash h).tally.keys = (c.pull hash h).chains.length := by
  rw [pull_keys, hkeys]
  exact (OrderedTable.length_pull hf.ascending hf.occupied hh).symm

end HashChains

namespace KeyRows

variable {r : KeyRows} {source : Source} {key : Key} {h : Handle}

theorem push_keys : (r.push key h).tally.keys =
    r.tally.keys + if (r.row key).isEmpty then 1 else 0 := by
  simp only [push]
  split <;> rfl

theorem pull_keys : (r.pull key h).tally.keys =
    r.tally.keys - if ((r.row key).erase h).isEmpty then 1 else 0 := by
  simp only [pull]
  split <;> rfl

theorem Filed.keys_push (hf : r.Filed source) (hkeys : r.tally.keys = r.rows.length) :
    (r.push key h).tally.keys = (r.push key h).rows.length := by
  rw [push_keys, push_rows, row_eq_listAt, OrderedTable.length_push hf.ascending hf.occupied, hkeys]

theorem Filed.keys_pull (hf : r.Filed source) (hkeys : r.tally.keys = r.rows.length)
    (hh : h ∈ r.row key) : (r.pull key h).tally.keys = (r.pull key h).rows.length := by
  rw [pull_keys, hkeys]
  exact (OrderedTable.length_pull hf.ascending hf.occupied hh).symm

end KeyRows

namespace GroupHeaps

variable {g : GroupHeaps} {source : Source} {key : Key} {h : Handle} {e : Entry}

theorem length_withGroup (ha : OrderedTable.Ascending Ord.compare g.buckets) (key : Key)
    (items : Array Item) : (g.withGroup key items).groups.length +
        (if (g.group? key).isNone then 0 else 1) =
      g.groups.length + if items.isEmpty then 0 else 1 := by
  obtain ⟨before, after, hold, hnew⟩ := groups_withGroup ha key
  rw [hold, (hnew items).length_eq, regroup]
  cases g.group? key <;> cases items.isEmpty <;> simp <;> omega

theorem Filed.keys_push (hf : g.Filed source) (hkeys : g.tally.keys = g.groups.length)
    (item : Item) : (g.push key item).tally.keys = (g.push key item).groups.length := by
  have hlength := length_withGroup hf.ascending key
    (Heap.push g.order (g.itemsAt key) g.places item).1
  have hne : (Heap.push g.order (g.itemsAt key) g.places item).1.isEmpty = false := by
    simp [Heap.push]
  rw [hne, ← hkeys] at hlength
  change Tally.keys (Tally.addEntry _) =
    (g.withGroup key (Heap.push g.order (g.itemsAt key) g.places item).1).groups.length
  cases hnew : (g.group? key).isNone <;> rw [hnew] at hlength <;>
    simp only [Bool.false_eq_true, if_true, if_false, Tally.addEntry, Tally.addKey] at hlength ⊢ <;>
    omega

theorem Filed.keys_pull (hf : g.Filed source) (hkeys : g.tally.keys = g.groups.length) {n : Nat}
    (hn : n < (g.itemsAt key).size) :
    (g.pull key h n).tally.keys = (g.pull key h n).groups.length := by
  have hlength := length_withGroup hf.ascending key (Heap.removeAt g.order (g.itemsAt key)
    (OrderedTable.erase Handle.compare h g.places) n).1
  have hsome : (g.group? key).isNone = false := by
    rw [itemsAt] at hn
    cases hgroup : g.group? key with
    | none =>
      rw [hgroup] at hn
      simp at hn
    | some group => rfl
  rw [hsome, ← hkeys] at hlength
  change Tally.keys (Tally.removeEntry _) = (g.withGroup key _).groups.length
  cases hgone : (Heap.removeAt g.order (g.itemsAt key)
      (OrderedTable.erase Handle.compare h g.places) n).1.isEmpty <;>
    rw [hgone] at hlength <;>
    simp only [Bool.false_eq_true, if_true, if_false, Tally.removeEntry, Tally.removeKey]
      at hlength ⊢ <;>
    omega

end GroupHeaps

namespace Index

variable {i j : Index} {source : Source} {shape : Shape} {placed : Arrivals} {h : Handle}
  {e : Entry}

/-- A new handle counts as a key exactly if it has a row of its own. -/
theorem Added.keys_eq (hadded : Added h e i j) (hf : i.Filed source)
    (hkeys : i.tally.keys = i.rowCount) : j.tally.keys = j.rowCount := by
  cases hadded with
  | list => exact hkeys
  | hash => exact HashChains.Filed.keys_push hf hkeys
  | tree => exact KeyRows.Filed.keys_push hf hkeys
  | @array g address haddress hfree =>
    have hlength := (AddressGrid.Filed.handles_occupy (h := h) hf hfree).length_eq
    have hkeys : g.tally.keys = g.occupied.length := hkeys
    rw [List.length_cons, AddressGrid.handles, AddressGrid.handles, List.length_map,
      List.length_map, ← hkeys] at hlength
    exact hlength.symm
  | heap => exact GroupHeaps.Filed.keys_push hf hkeys _

theorem Carries.exists_pull {g g' : GroupHeaps} (hi : (heap g).Carries shape placed)
    (hm : (h, e) ∈ placed) (hremove : (heap g).remove? h e = .ok (some (heap g'))) :
    ∃ n < (g.itemsAt (g.projection.keyOf e)).size, g' = g.pull (g.projection.keyOf e) h n := by
  have hf : g.Filed placed.known := hi.filed
  obtain ⟨n, -, ⟨hn, -⟩, hpull⟩ :=
    hf.exists_pull ((Arrivals.known_eq_some_iff hi.nodup).2 hm) (hi.mem_handles_iff.2 ⟨e, hm⟩)
  rw [Index.remove?, hpull] at hremove
  exact ⟨n, hn, (Index.heap.inj (Option.some.inj (Except.ok.inj hremove))).symm⟩

/-- A handle that is removed takes its key along exactly if it was the last of its row. -/
theorem Removed.keys_eq (hremoved : Removed h e i j) (hi : i.Carries shape placed)
    (hm : (h, e) ∈ placed) (hremove : i.remove? h e = .ok (some j))
    (hkeys : i.tally.keys = i.rowCount) : j.tally.keys = j.rowCount := by
  have hf := hi.filed
  cases hremoved with
  | list => exact hkeys
  | hash hh => exact HashChains.Filed.keys_pull hf hkeys hh
  | tree hh => exact KeyRows.Filed.keys_pull hf hkeys hh
  | @array g address hholder =>
    have hheld : h ∈ g.handles := hi.mem_handles_iff.2 ⟨e, hm⟩
    have hlength := (AddressGrid.Filed.handles_vacate hf hholder).length_eq
    have hkeys : g.tally.keys = g.occupied.length := hkeys
    rw [List.length_erase_of_mem hheld, AddressGrid.handles, AddressGrid.handles, List.length_map,
      List.length_map, ← hkeys] at hlength
    exact hlength.symm
  | heap =>
    obtain ⟨n, hn, rfl⟩ := hi.exists_pull hm hremove
    exact GroupHeaps.Filed.keys_pull hf hkeys hn

theorem Filed.entries_eq (hf : i.Filed source) : i.tally.entries = i.handles.length := by
  cases i with
  | list l => exact ScanList.Filed.entries hf
  | hash c => exact HashChains.Filed.entries hf
  | tree r => exact KeyRows.Filed.entries hf
  | array g => exact AddressGrid.Filed.entries hf
  | heap g => exact GroupHeaps.Filed.entries hf

theorem Added.peak_eq (hadded : Added h e i j) :
    j.tally.peak = max i.tally.peak (i.tally.entries + 1) := by
  cases hadded with
  | list | array => rfl
  | hash | tree | heap =>
    simp only [tally, HashChains.push, KeyRows.push, GroupHeaps.push, Tally.addEntry]
    split <;> rfl

theorem Removed.peak_eq (hremoved : Removed h e i j) (hi : i.Carries shape placed)
    (hm : (h, e) ∈ placed) (hremove : i.remove? h e = .ok (some j)) :
    j.tally.peak = i.tally.peak := by
  cases hremoved with
  | list | array => rfl
  | hash | tree =>
    simp only [tally, HashChains.pull, KeyRows.pull, Tally.removeEntry]
    split <;> rfl
  | heap =>
    obtain ⟨n, -, rfl⟩ := hi.exists_pull hm hremove
    simp only [tally, GroupHeaps.pull, GroupHeaps.replace, Tally.removeEntry]
    split <;> rfl

/-! ## Runs -/

structure Run.Tallied (run : Run) : Prop where
  keys : run.index.tally.keys = run.index.rowCount
  peak : run.index.tally.peak = run.sizes.foldr max 0
  bound : run.placed.length ≤ run.index.tally.peak

theorem Run.tallied_start (hempty : i.blank = i) : (start i).Tallied := by
  rw [← hempty]
  exact ⟨by cases i <;> rfl, by cases i <;> rfl, Nat.zero_le _⟩

/-- Every outcome of an action keeps the counters in step. -/
theorem Run.Tallied.next {run : Run} {a : Action} {answer : Bool} (hr : run.Tallied)
    (hi : run.index.Carries shape run.placed) (hp : Performed run.placed run.index a answer j)
    (hj : j.Carries shape (run.placed.follow answer a)) :
    Tallied ⟨j, run.placed.follow answer a, (run.placed.follow answer a).length :: run.sizes⟩ := by
  obtain ⟨hkeys, hpeak, hbound⟩ := hr
  -- unless a handle is added, what is held is within the peak, which stays
  have hstay (hjkeys : j.tally.keys = j.rowCount) (hjpeak : j.tally.peak = run.index.tally.peak)
      (hle : (run.placed.follow answer a).length ≤ run.index.tally.peak) :
      Tallied ⟨j, run.placed.follow answer a,
        (run.placed.follow answer a).length :: run.sizes⟩ := by
    refine ⟨hjkeys, ?_, hjpeak ▸ hle⟩
    rw [List.foldr_cons, ← hpeak, Nat.max_eq_right hle]
    exact hjpeak
  cases hp with
  | @added source h e _ hadded =>
    have hgrown : (run.placed.follow true (.change source (.add h e))).length =
        run.index.tally.entries + 1 := by
      rw [hi.filed.entries_eq, ← hi.length_placed]
      exact List.length_append
    have hjpeak := hadded.peak_eq
    rw [← hgrown] at hjpeak
    refine ⟨hadded.keys_eq hi.filed hkeys, ?_, hjpeak ▸ Nat.le_max_right _ _⟩
    rw [List.foldr_cons, ← hpeak, Nat.max_comm]
    exact hjpeak
  | refused => exact hstay hkeys rfl hbound
  | removed hm hremove hremoved =>
    exact hstay (hremoved.keys_eq hi hm hremove hkeys) (hremoved.peak_eq hi hm hremove)
      (Nat.le_trans (List.length_filter_le _ _) hbound)
  | missed => exact hstay hkeys rfl (Nat.le_trans (List.length_filter_le _ _) hbound)
  | cleared =>
    refine hstay ?_ ?_ (Nat.zero_le _)
    · cases run.index <;> rfl
    · cases run.index <;> rfl

theorem handles_of_rowCount (hkind : i.kind ≠ .list) (h : i.rowCount = 0) : i.handles = [] := by
  cases i with
  | list l => exact absurd rfl hkind
  | hash c => rw [handles, HashChains.handles, List.eq_nil_of_length_eq_zero h, List.flatMap_nil]
  | tree r => rw [handles, KeyRows.handles, List.eq_nil_of_length_eq_zero h, List.flatMap_nil]
  | array g => rw [handles, AddressGrid.handles, List.eq_nil_of_length_eq_zero h, List.map_nil]
  | heap g => rw [handles, GroupHeaps.handles, List.eq_nil_of_length_eq_zero h, List.flatMap_nil]

structure Run.Exact (run : Run) : Prop where
  handles : run.index.handles.Perm run.placed.handles
  nodup : run.index.handles.Nodup
  size : run.index.tally.entries = run.index.size
  entries : run.index.tally.entries = run.index.handles.length
  keys : run.index.tally.keys = run.index.keyCount run.placed
  peak : run.index.tally.peak = run.sizes.foldr max 0

/-- What an action answers and leaves: an addition that is refused and a removal that finds nothing
change nothing, and a removal finds what is held. Then no counter that it takes down is zero. -/
structure Run.Answers (run : Run) (a : Action) (answer : Bool) (j : Index) : Prop where
  unchanged : answer = false → j = run.index
  found : ∀ source h e, a = .change source (.remove h e) →
    (answer = true ↔ h ∈ run.index.handles)
  positive : ∀ source h e, a = .change source (.remove h e) → answer = true →
    0 < run.index.tally.entries ∧ (run.index.kind ≠ .list → 0 < run.index.tally.keys)

theorem Run.Tallied.exact {run : Run} (hr : run.Tallied)
    (hi : run.index.Carries shape run.placed) : run.Exact where
  handles := hi.perm
  nodup := hi.perm.nodup_iff.2 hi.nodup
  size := hi.filed.entries_eq.trans hi.filed.size_eq.symm
  entries := hi.filed.entries_eq
  keys := hr.keys.trans hi.rowCount_eq
  peak := hr.peak

theorem Run.Tallied.answers {run : Run} {a : Action} {answer : Bool} (hr : run.Tallied)
    (hi : run.index.Carries shape run.placed) (hp : Performed run.placed run.index a answer j) :
    run.Answers a answer j := by
  cases hp with
  | added => exact ⟨nofun, nofun, nofun⟩
  | refused => exact ⟨fun _ => rfl, nofun, nofun⟩
  | cleared => exact ⟨nofun, nofun, nofun⟩
  | @missed source h e hmissing =>
    refine ⟨fun _ => rfl, fun _ _ _ heq => ?_, nofun⟩
    obtain ⟨rfl, rfl, rfl⟩ : _ ∧ _ ∧ _ := by simpa using heq
    exact iff_of_false nofun fun hm => hmissing (hi.perm.mem_iff.1 hm)
  | @removed source h e _ hm =>
    have hheld : h ∈ run.index.handles := hi.mem_handles_iff.2 ⟨e, hm⟩
    refine ⟨nofun, fun _ _ _ heq => ?_, fun _ _ _ _ _ => ⟨?_, fun hkind => ?_⟩⟩
    · obtain ⟨rfl, rfl, rfl⟩ : _ ∧ _ ∧ _ := by simpa using heq
      exact iff_of_true rfl hheld
    · rw [hi.filed.entries_eq]
      exact List.length_pos_of_mem hheld
    · rw [hr.keys, Nat.pos_iff_ne_zero]
      intro hnone
      rw [handles_of_rowCount hkind hnone] at hheld
      cases hheld

/-- The counters of an index are exact after every run on it, whatever was refused or not found on
the way, and every further action answers and leaves what it should. -/
theorem tallies_exact {actions : List Action} (hempty : i.blank = i) (hr : i.Reads shape)
    (ha : Run.Admissible shape actions (.start i)) :
    ∃ run, (Run.start i).steps actions = .ok run ∧ run.index.blank = i ∧ run.Exact ∧
      ∀ a : Action, a.Ready shape run.placed → ∃ answer j,
        run.index.perform a = .ok (answer, j) ∧ run.Answers a answer j := by
  obtain ⟨run, hrun, hcarries, hblank, htallied⟩ := Run.exists_steps (P := Run.Tallied)
    (.of_empty hempty hr) (Run.tallied_start hempty)
    (fun _ _ _ _ hi ht hp hj => ht.next hi hp hj) ha
  refine ⟨run, hrun, hblank.trans hempty, htallied.exact hcarries, fun a hready => ?_⟩
  obtain ⟨answer, j, hperform, hperformed, -⟩ := hcarries.perform hready
  exact ⟨answer, j, hperform, htallied.answers hcarries hperformed⟩

/-- In a tree with unique keys, an addition that is refused and a removal of its handle, which finds
nothing. -/
def sampleActions : List Action :=
  [sampleAdd 0, sampleAdd 2, sampleAdd 1, sampleRemove 2, sampleRemove 0].map fun c =>
    .change c.1 c.2

def sampleTree : Index := .tree (.empty ⟨⟨[.int]⟩, [0], .ordering⟩ true)

theorem admissible_sampleActions : Run.Admissible ⟨[.int]⟩ sampleActions (.start sampleTree) := by
  have hsource : Source.Conforms (fun h => some (sampleKeyed h)) ⟨[.int]⟩ := fun _ _ he =>
    Option.some.inj he ▸ ⟨rfl, rfl⟩
  refine ⟨⟨hsource, by decide, by decide⟩, fun run hrun => ?_⟩
  obtain rfl := Except.ok.inj hrun
  refine ⟨⟨hsource, by decide, by decide⟩, fun run hrun => ?_⟩
  obtain rfl := Except.ok.inj hrun
  refine ⟨⟨hsource, by decide, by decide⟩, fun run hrun => ?_⟩
  obtain rfl := Except.ok.inj hrun
  refine ⟨⟨by decide, by decide⟩, fun run hrun => ?_⟩
  obtain rfl := Except.ok.inj hrun
  exact ⟨⟨by decide, by decide⟩, fun _ _ => trivial⟩

/-- Two additions of three were taken and one removal of two found its handle. A removal of the other
one would find it too, and the addition that was refused would be taken now. -/
theorem tallies_exact_of_sample :
    sampleTree.blank = sampleTree ∧ sampleTree.Reads ⟨[.int]⟩ ∧
    Run.Admissible ⟨[.int]⟩ sampleActions (.start sampleTree) ∧
    ∃ run, (Run.start sampleTree).steps sampleActions = .ok run ∧ run.index.blank = sampleTree ∧
      run.Exact ∧ (∀ a : Action, a.Ready ⟨[.int]⟩ run.placed → ∃ answer j,
        run.index.perform a = .ok (answer, j) ∧ run.Answers a answer j) ∧
      run.sizes = [1, 2, 2, 1, 1] ∧ run.index.handles = [⟨1, 0⟩] ∧ run.index.tally = ⟨1, 1, 2⟩ ∧
      [sampleRemove 1, sampleRemove 0, sampleAdd 2].map (fun c =>
        Prod.fst <$> run.index.perform (.change c.1 c.2)) = [.ok true, .ok false, .ok true] := by
  have hempty : sampleTree.blank = sampleTree := rfl
  have hinside : ∀ o ∈ [0], o < 1 := by decide
  have hr : sampleTree.Reads ⟨[.int]⟩ := ⟨hinside, trivial⟩
  obtain ⟨run, hrun, hblank, hexact, hanswers⟩ := tallies_exact hempty hr admissible_sampleActions
  refine ⟨hempty, hr, admissible_sampleActions, run, hrun, hblank, hexact, hanswers, ?_⟩
  obtain rfl := Except.ok.inj hrun
  exact ⟨rfl, rfl, rfl, rfl⟩

end Index
end IndexedStore
