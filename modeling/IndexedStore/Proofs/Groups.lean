import Mathlib.Data.List.Flatten
import Mathlib.Data.List.Pairwise
import IndexedStore.Index.GroupHeaps
import IndexedStore.Proofs.HeapPlaces
import IndexedStore.Proofs.Keys

/-!
# The groups of a heap index

Replacing the items of one key changes the groups in one place. In an index that is filed, no two
groups have level keys, every group is in heap order, and its items stand under the group key and
the target value of their entries.
-/
namespace IndexedStore

def Group.handles (group : Group) : List Handle := group.items.toList.map Item.handle

def Group.Apart (a b : Group) : Prop := Key.compare a.key b.key ≠ .eq

instance : Std.Symm Group.Apart where
  symm _ _ hab hba := hab (Std.OrientedCmp.eq_symm hba)

namespace GroupHeaps

variable {g : GroupHeaps} {source after : Source} {key : Key} {group : Group} {h : Handle}
  {e : Entry}

def regroup (key : Key) (old : Option Group) (items : Array Item) : Option Group :=
  if items.isEmpty then none else some ⟨(old.map Group.key).getD key, items⟩

def others (g : GroupHeaps) (key : Key) : List Group :=
  g.groups.filter fun group => Key.compare key group.key ≠ .eq

theorem mem_others_iff : group ∈ g.others key ↔
    group ∈ g.groups ∧ Key.compare key group.key ≠ .eq := by
  simp [others]

theorem handles_eq_flatMap : g.handles = g.groups.flatMap Group.handles := rfl

theorem mem_handles_iff : h ∈ g.handles ↔ ∃ group ∈ g.groups, h ∈ group.handles := by
  rw [handles_eq_flatMap, List.mem_flatMap]

/-- A bucket changes where the group of the key is. The other groups stay, if not in their order. -/
theorem putGroup_split (key : Key) (bucket : List Group) : ∃ before after,
    bucket = before ++ (bucket.find? fun group => Key.same key group.key).toList ++ after ∧
    ∀ items, (putGroup key items bucket).Perm (before ++
      (regroup key (bucket.find? fun group => Key.same key group.key) items).toList ++ after) := by
  induction bucket with
  | nil =>
    refine ⟨[], [], rfl, fun items => ?_⟩
    cases hi : items.isEmpty <;> simp [putGroup, regroup, hi]
  | cons group bucket ih =>
    by_cases hk : Key.same key group.key = true
    · have hlast : (bucket.getLast?.toList ++ bucket.dropLast).Perm bucket := by
        obtain rfl | ⟨init, last, rfl⟩ := List.eq_nil_or_concat bucket
        · rfl
        · simpa using (List.perm_append_singleton last init).symm
      refine ⟨[], bucket, by simp [hk], fun items => ?_⟩
      cases hi : items.isEmpty <;> simp [putGroup, regroup, hk, hi, hlast]
    · obtain ⟨before, after, hold, hnew⟩ := ih
      have hskip : (group :: bucket).find? (fun group => Key.same key group.key) =
          bucket.find? fun group => Key.same key group.key := by simp [hk]
      refine ⟨group :: before, after, ?_, fun items => ?_⟩
      · rw [hskip, List.cons_append, List.cons_append, ← hold]
      · rw [hskip, putGroup, if_neg hk]
        exact (hnew items).cons group

theorem withGroup_buckets (ha : OrderedTable.Ascending Ord.compare g.buckets) (key : Key)
    (items : Array Item) : (g.withGroup key items).buckets =
      OrderedTable.putList Ord.compare key.hash (putGroup key items (g.bucket key.hash))
        g.buckets :=
  OrderedTable.alter_congr ha rfl

theorem groups_withGroup (ha : OrderedTable.Ascending Ord.compare g.buckets) (key : Key) :
    ∃ before after, g.groups = before ++ (g.group? key).toList ++ after ∧
    ∀ items, (g.withGroup key items).groups.Perm
      (before ++ (regroup key (g.group? key) items).toList ++ after) := by
  obtain ⟨outer, beyond, hold, hnew⟩ := OrderedTable.exists_flatMap_putList ha key.hash
  obtain ⟨inner, rest, hbucket, hput⟩ := putGroup_split key (g.bucket key.hash)
  refine ⟨outer ++ inner, rest ++ beyond, ?_, fun items => ?_⟩
  · have hsame : OrderedTable.listAt Ord.compare key.hash g.buckets = g.bucket key.hash := rfl
    rw [groups, hold, hsame, hbucket]
    simp [group?]
  · rw [groups, withGroup_buckets ha, hnew]
    simpa [group?] using ((hput items).append_left outer).append_right beyond

structure Reads (g : GroupHeaps) (e : Entry) : Prop where
  fits : g.projection.Fits e
  pos : 0 < g.target
  le : g.target ≤ e.values.length

def targetOf (g : GroupHeaps) (e : Entry) : Value := e.valueAt (g.target - 1)

theorem get_target (hr : g.Reads e) : e.get g.target = .ok (g.targetOf e) := by
  have hlt : g.target - 1 < e.values.length := by
    have := hr.pos
    have := hr.le
    omega
  have hget := Entry.get_eq hlt
  rwa [Nat.sub_add_cancel hr.pos] at hget

def Bears (g : GroupHeaps) (source : Source) (key : Key) (item : Item) : Prop :=
  ∃ e, source item.handle = some e ∧ g.Reads e ∧ Key.compare (g.projection.keyOf e) key = .eq ∧
    Value.compare item.value (g.targetOf e) = .eq

/-- A group is in heap order, and its items stand where their entries belong. -/
structure Kept (g : GroupHeaps) (source : Source) (group : Group) : Prop where
  occupied : 0 < group.items.size
  inOrder : Heap.InOrder g.order group.items
  placed : Heap.Placed group.items g.places
  bears : ∀ item ∈ group.items, g.Bears source group.key item

/-- A look-up finds the group of every key, and no group is empty. -/
structure Keyed (g : GroupHeaps) : Prop where
  ascending : OrderedTable.Ascending Ord.compare g.buckets
  hashed : ∀ row ∈ g.buckets, ∀ group ∈ row.2, group.key.hash = row.1
  apart : g.groups.Pairwise Group.Apart
  width : ∀ group ∈ g.groups, group.key.length = g.projection.width
  occupied : ∀ group ∈ g.groups, 0 < group.items.size

/-- The groups with other items under a key, and another table of places. -/
def replace (g : GroupHeaps) (key : Key) (out : Array Item × Places) (tally : Tally) :
    GroupHeaps :=
  { g.withGroup key out.1 with places := out.2, tally }

namespace Keyed

variable (hf : g.Keyed)
include hf

theorem eq_of_level {a b : Group} (ha : a ∈ g.groups) (hb : b ∈ g.groups)
    (level : Key.compare a.key b.key = .eq) : a = b := by
  by_contra hne
  exact hf.apart.forall ha hb hne level

theorem group?_eq_some_iff (hk : key.length = g.projection.width) :
    g.group? key = some group ↔ group ∈ g.groups ∧ Key.compare key group.key = .eq := by
  have hmem {group : Group} (hg : g.group? key = some group) :
      group ∈ g.groups ∧ Key.compare key group.key = .eq := by
    have hbucket := List.mem_of_find?_eq_some hg
    obtain ⟨row, hr, _, hm⟩ := OrderedTable.exists_of_mem_listAt hf.ascending hbucket
    have hgroup : group ∈ g.groups := List.mem_flatMap.2 ⟨row, hr, hm⟩
    have hsame : Key.same key group.key = true :=
      List.find?_some (p := fun group : Group => Key.same key group.key) hg
    exact ⟨hgroup, (Key.same_eq_true_iff (by rw [hk, hf.width group hgroup])).1 hsame⟩
  refine ⟨hmem, fun ⟨hg, level⟩ => ?_⟩
  obtain ⟨row, hr, hm⟩ := List.mem_flatMap.1 hg
  have hbucket : g.bucket key.hash = row.2 :=
    OrderedTable.listAt_of_mem hf.ascending hr (by
      rw [Key.hash_eq level, hf.hashed row hr group hm]
      exact Std.ReflCmp.compare_self)
  cases hfound : g.group? key with
  | none =>
    rw [group?, hbucket, List.find?_eq_none] at hfound
    exact absurd (Key.same_of_compare level) (hfound group hm)
  | some other =>
    obtain ⟨ho, hother⟩ := hmem hfound
    rw [hf.eq_of_level ho hg (Std.TransCmp.eq_trans (Std.OrientedCmp.eq_symm hother) level)]

theorem groups_perm (hk : key.length = g.projection.width) :
    g.groups.Perm ((g.group? key).toList ++ g.others key) ∧
    ∀ items, (g.withGroup key items).groups.Perm
      ((regroup key (g.group? key) items).toList ++ g.others key) := by
  obtain ⟨before, after, hold, hnew⟩ := groups_withGroup hf.ascending key
  have hout (middle : List Group) :
      (before ++ middle ++ after).Perm (middle ++ (before ++ after)) := by
    rw [← List.append_assoc]
    exact List.perm_append_comm.append_right after
  have hperm : g.groups.Perm ((g.group? key).toList ++ (before ++ after)) := by
    rw [hold]
    exact hout _
  have hcross := (List.pairwise_append.1
    ((hperm.pairwise_iff fun hab => symm hab).1 hf.apart)).2.2
  have hne : ∀ group ∈ before ++ after, Key.compare key group.key ≠ .eq := by
    intro group hg level
    have hmem := hperm.mem_iff.2 (List.mem_append_right _ hg)
    have hfound := (hf.group?_eq_some_iff hk).2 ⟨hmem, level⟩
    exact hcross group (by simp [hfound]) group hg Std.ReflCmp.compare_self
  have hothers : g.others key = before ++ after := by
    have hbefore := List.filter_eq_self.2 fun group hg =>
      decide_eq_true (hne group (List.mem_append_left after hg))
    have hafter := List.filter_eq_self.2 fun group hg =>
      decide_eq_true (hne group (List.mem_append_right before hg))
    have hgroup : (g.group? key).toList.filter (fun group => Key.compare key group.key ≠ .eq) =
        [] := by
      refine List.filter_eq_nil_iff.2 fun group hg => ?_
      have level := ((hf.group?_eq_some_iff hk).1 (Option.mem_toList.1 hg)).2
      simp [level]
    rw [others, hold, List.filter_append, List.filter_append, hgroup, hbefore, hafter,
      List.append_nil]
  rw [hothers]
  exact ⟨hperm, fun items => (hnew items).trans (hout _)⟩

/-- The group of a key after its items were replaced has a level key and just these items. -/
theorem regroup_spec (hk : key.length = g.projection.width) {items : Array Item}
    (hg : regroup key (g.group? key) items = some group) :
    Key.compare key group.key = .eq ∧ group.items = items ∧ 0 < items.size := by
  rw [regroup] at hg
  split at hg
  · cases hg
  next hne =>
    obtain rfl := Option.some.inj hg
    refine ⟨?_, rfl, Array.size_pos_iff.2 (by simpa using hne)⟩
    cases hold : g.group? key with
    | none => exact Std.ReflCmp.compare_self
    | some old => exact ((hf.group?_eq_some_iff hk).1 hold).2

theorem hash_of_mem_bucket {hash : UInt32} (hg : group ∈ g.bucket hash) : group.key.hash = hash := by
  obtain ⟨row, hr, level, hm⟩ := OrderedTable.exists_of_mem_listAt hf.ascending hg
  rw [hf.hashed row hr group hm, ← Std.LawfulEqCmp.eq_of_compare level]

theorem hashed_withGroup (hk : key.length = g.projection.width) (items : Array Item) :
    ∀ row ∈ (g.withGroup key items).buckets, ∀ group ∈ row.2, group.key.hash = row.1 := by
  intro row hr group hg
  rw [withGroup_buckets hf.ascending] at hr
  rcases OrderedTable.mem_putList hf.ascending hr with hr | ⟨level, hbucket, _⟩
  · exact hf.hashed row hr group hg
  · obtain ⟨before, after, hold, hnew⟩ := putGroup_split key (g.bucket key.hash)
    have hrow : key.hash = row.1 := Std.LawfulEqCmp.eq_of_compare level
    rw [hbucket, (hnew items).mem_iff, List.mem_append, List.mem_append] at hg
    rw [← hrow]
    rcases hg with (hg | hg) | hg
    · exact hf.hash_of_mem_bucket (by rw [hold]; simp [hg])
    · exact (Key.hash_eq (hf.regroup_spec hk (Option.mem_toList.1 hg)).1).symm
    · exact hf.hash_of_mem_bucket (by rw [hold]; simp [hg])

theorem replace (hk : key.length = g.projection.width) (out : Array Item × Places)
    (tally : Tally) : (g.replace key out tally).Keyed := by
  obtain ⟨-, hwith⟩ := hf.groups_perm hk
  have hregroup {group : Group} (hg : group ∈ (regroup key (g.group? key) out.1).toList) :=
    hf.regroup_spec hk (Option.mem_toList.1 hg)
  constructor
  · exact OrderedTable.ascending_alter hf.ascending
  · exact hf.hashed_withGroup hk out.1
  · refine ((hwith out.1).pairwise_iff fun hab => symm hab).2 (List.pairwise_append.2 ⟨?_, ?_, ?_⟩)
    · cases regroup key (g.group? key) out.1 <;> simp
    · exact hf.apart.filter _
    · intro a ha b hb level
      exact (mem_others_iff.1 hb).2 (Std.TransCmp.eq_trans (hregroup ha).1 level)
  · intro group hg
    rcases List.mem_append.1 ((hwith out.1).mem_iff.1 hg) with hg | hg
    · exact (Key.length_eq (hregroup hg).1).symm.trans hk
    · exact hf.width group (mem_others_iff.1 hg).1
  · intro group hg
    rcases List.mem_append.1 ((hwith out.1).mem_iff.1 hg) with hg | hg
    · obtain ⟨-, hitems, hpos⟩ := hregroup hg
      exact hitems ▸ hpos
    · exact hf.occupied group (mem_others_iff.1 hg).1

end Keyed

/-- Every handle stands once, in the group of its entry, and the table has all places. -/
structure Filed (source : Source) (g : GroupHeaps) : Prop where
  ascending : OrderedTable.Ascending Ord.compare g.buckets
  occupied : ∀ row ∈ g.buckets, row.2 ≠ []
  hashed : ∀ row ∈ g.buckets, ∀ group ∈ row.2, group.key.hash = row.1
  apart : g.groups.Pairwise Group.Apart
  kept : ∀ group ∈ g.groups, g.Kept source group
  nodup : g.handles.Nodup
  table : OrderedTable.Ascending Handle.compare g.places
  known : ∀ h, (Heap.placeOf h g.places).isSome → h ∈ g.handles
  entries : g.tally.entries = g.handles.length

theorem empty_filed (π : Projection) (target : Nat) (order : Direction) :
    (empty π target order).Filed source where
  ascending := List.Pairwise.nil
  occupied := by simp [empty]
  hashed := by simp [empty]
  apart := List.Pairwise.nil
  kept := by simp [empty, groups]
  nodup := List.nodup_nil
  table := List.Pairwise.nil
  known := by simp [empty, Heap.placeOf, OrderedTable.find?]
  entries := rfl

theorem clear_filed (g : GroupHeaps) : g.clear.Filed source where
  ascending := List.Pairwise.nil
  occupied := by simp [clear]
  hashed := by simp [clear]
  apart := List.Pairwise.nil
  kept := by simp [clear, groups]
  nodup := List.nodup_nil
  table := List.Pairwise.nil
  known := by simp [clear, Heap.placeOf, OrderedTable.find?]
  entries := rfl

namespace Filed

variable (hf : g.Filed source)
include hf

theorem exists_bears (hg : group ∈ g.groups) (hh : h ∈ group.handles) :
    ∃ item ∈ group.items, item.handle = h ∧ g.Bears source group.key item := by
  obtain ⟨item, hm, rfl⟩ := List.mem_map.1 hh
  have hm := Array.mem_toList_iff.1 hm
  exact ⟨item, hm, rfl, (hf.kept group hg).bears item hm⟩

theorem exists_entry (hh : h ∈ g.handles) : ∃ e, source h = some e ∧ g.Reads e := by
  obtain ⟨group, hg, hm⟩ := mem_handles_iff.1 hh
  obtain ⟨item, _, rfl, e, hs, hr, _⟩ := hf.exists_bears hg hm
  exact ⟨e, hs, hr⟩

theorem length_key (hg : group ∈ g.groups) : group.key.length = g.projection.width := by
  have hitem := Array.getElem_mem (hf.kept group hg).occupied
  obtain ⟨e, _, _, level, _⟩ := (hf.kept group hg).bears _ hitem
  rw [← Key.length_eq level, Projection.length_keyOf]

theorem keyed : g.Keyed where
  ascending := hf.ascending
  hashed := hf.hashed
  apart := hf.apart
  width _ hg := hf.length_key hg
  occupied group hg := (hf.kept group hg).occupied

section Replacement

variable (hk : key.length = g.projection.width) {kept : List Item}
  {places : Places} {out : Array Item × Places} {tally : Tally}
  (hl : Heap.Leaves g.order kept places out)
include hk hl

theorem handles_replace : (g.replace key out tally).handles.Perm
    (kept.map Item.handle ++ (g.others key).flatMap Group.handles) := by
  have hmiddle : ((regroup key (g.group? key) out.1).toList.flatMap Group.handles).Perm
      (kept.map Item.handle) := by
    refine .trans (.of_eq ?_) (hl.items.map Item.handle)
    rw [regroup]
    split
    next hempty => simp [Array.isEmpty_iff.1 hempty]
    · simp [Group.handles]
  refine (((hf.keyed.groups_perm hk).2 out.1).flatMap_right Group.handles).trans ?_
  rw [List.flatMap_append]
  exact hmiddle.append_right _

/-- Groups stay filed when the items of a key are replaced by others that bear it, if the table
keeps the places of all other items. -/
theorem replace (hbears : ∀ item ∈ kept, g.Bears source key item)
    (hnodup : (kept.map Item.handle).Nodup)
    (hothers : ∀ h ∈ (g.others key).flatMap Group.handles,
      h ∉ kept.map Item.handle ∧ Heap.placeOf h places = Heap.placeOf h g.places)
    (hknown : ∀ h, (Heap.placeOf h places).isSome → h ∉ kept.map Item.handle →
      h ∈ (g.others key).flatMap Group.handles)
    (hentries : tally.entries = (g.replace key out tally).handles.length) :
    (g.replace key out tally).Filed source := by
  have hnew : (g.replace key out tally).handles.Perm _ := hf.handles_replace hk hl
  obtain ⟨-, hwith⟩ := hf.keyed.groups_perm hk
  have hregroup {group : Group} (hg : group ∈ (regroup key (g.group? key) out.1).toList) :=
    hf.keyed.regroup_spec hk (Option.mem_toList.1 hg)
  have hkeyed := hf.keyed.replace hk out tally
  constructor
  · exact hkeyed.ascending
  · have hrows := withGroup_buckets hf.ascending key out.1
    exact hrows ▸ OrderedTable.ne_nil_of_mem_putList hf.ascending hf.occupied
  · exact hkeyed.hashed
  · exact hkeyed.apart
  · intro group hg
    rcases List.mem_append.1 ((hwith out.1).mem_iff.1 hg) with hg | hg
    · obtain ⟨level, hitems, hpos⟩ := hregroup hg
      refine ⟨hitems ▸ hpos, hitems ▸ hl.inOrder, hitems ▸ hl.placed, fun item hm => ?_⟩
      rw [hitems] at hm
      obtain ⟨e, hs, hr, hkey, hvalue⟩ :=
        hbears item (hl.items.mem_iff.1 (Array.mem_toList_iff.2 hm))
      exact ⟨e, hs, ⟨hr.fits, hr.pos, hr.le⟩, Std.TransCmp.eq_trans hkey level, hvalue⟩
    · obtain ⟨hpos, horder, hplaced, hbears⟩ := hf.kept group (mem_others_iff.1 hg).1
      refine ⟨hpos, horder, fun j hj => ?_, fun item hm => ?_⟩
      · have hh : group.items[j].handle ∈ (g.others key).flatMap Group.handles :=
          List.mem_flatMap.2
            ⟨group, hg, List.mem_map_of_mem (Array.mem_toList_iff.2 (Array.getElem_mem hj))⟩
        obtain ⟨hapart, hsame⟩ := hothers _ hh
        exact (hl.frame _ hapart).trans (hsame.trans (hplaced j hj))
      · obtain ⟨e, hs, hr, hkey, hvalue⟩ := hbears item hm
        exact ⟨e, hs, ⟨hr.fits, hr.pos, hr.le⟩, hkey, hvalue⟩
  · refine hnew.nodup_iff.2 (List.nodup_append.2 ⟨hnodup, ?_, ?_⟩)
    · exact hf.nodup.sublist (List.filter_sublist.flatMap _)
    · rintro a ha b hb rfl
      exact (hothers a hb).1 ha
  · exact hl.ascending
  · intro h hsome
    refine hnew.mem_iff.2 (List.mem_append.2 ?_)
    by_cases hh : h ∈ kept.map Item.handle
    · exact .inl hh
    · have hplace : Heap.placeOf h out.2 = Heap.placeOf h places := hl.frame h hh
      exact .inr (hknown h (hplace ▸ hsome) hh)
  · exact hentries

end Replacement

end Filed

end GroupHeaps
end IndexedStore
