import IndexedStore.Proofs.Groups

/-!
# What group heaps hold

An addition puts an item into the group of its entry and a removal takes it out of there; both keep
the groups filed. The root of a group is its least item, so a peek answers the least of all handles
whose group key a probe looks for.
-/
namespace IndexedStore.GroupHeaps

variable {g : GroupHeaps} {source after : Source} {key : Key} {group : Group} {h : Handle}
  {e : Entry}

def itemsAt (g : GroupHeaps) (key : Key) : Array Item :=
  match g.group? key with
  | some group => group.items
  | none => #[]

theorem handles_itemsAt : (g.itemsAt key).toList.map Item.handle =
    (g.group? key).elim [] Group.handles := by
  rw [itemsAt]
  cases g.group? key <;> rfl

/-- The groups without the item that a handle has at a position of the heap of a key. -/
def pull (g : GroupHeaps) (key : Key) (h : Handle) (i : Nat) : GroupHeaps :=
  let out := Heap.removeAt g.order (g.itemsAt key) (OrderedTable.erase Handle.compare h g.places) i
  g.replace key out (if out.1.isEmpty then g.tally.removeKey else g.tally).removeEntry

theorem push_eq_replace (item : Item) : g.push key item =
    g.replace key (Heap.push g.order (g.itemsAt key) g.places item)
      (if (g.group? key).isNone then g.tally.addKey else g.tally).addEntry := rfl

theorem add_eq (hr : g.Reads e) :
    g.add h e = .ok (g.push (g.projection.keyOf e) ⟨g.targetOf e, h⟩) := by
  rw [add, Projection.project_eq hr.fits, Checked.ok_bind, get_target hr]
  rfl

theorem isAffected_eq {old new : Entry} (ho : g.Reads old) (hn : g.Reads new) :
    g.isAffected old new = .ok (!Key.same (g.projection.keyOf old) (g.projection.keyOf new) ||
      !(g.targetOf old).same (g.targetOf new)) := by
  rw [isAffected, Projection.changed_eq ho.fits hn.fits, Checked.ok_bind, get_target ho,
    get_target hn]
  cases Key.same (g.projection.keyOf old) (g.projection.keyOf new) <;> rfl

namespace Filed

variable (hf : g.Filed source)
include hf

theorem inOrder_itemsAt (hk : key.length = g.projection.width) :
    Heap.InOrder g.order (g.itemsAt key) ∧ Heap.Placed (g.itemsAt key) g.places := by
  rw [itemsAt]
  split
  next group hg =>
    have hkept := hf.kept group ((hf.keyed.group?_eq_some_iff hk).1 hg).1
    exact ⟨hkept.inOrder, hkept.placed⟩
  · exact ⟨Heap.inOrder_empty, fun j hj => by simp at hj⟩

theorem bears_itemsAt (hk : key.length = g.projection.width) :
    ∀ item ∈ g.itemsAt key, g.Bears source key item := by
  rw [itemsAt]
  split
  next group hg =>
    obtain ⟨hm, level⟩ := (hf.keyed.group?_eq_some_iff hk).1 hg
    intro item hi
    obtain ⟨e, hs, hr, hkey, hvalue⟩ := (hf.kept group hm).bears item hi
    exact ⟨e, hs, hr, Std.TransCmp.eq_trans hkey (Std.OrientedCmp.eq_symm level), hvalue⟩
  · intro item hi
    simp at hi

theorem handles_perm (hk : key.length = g.projection.width) : g.handles.Perm
    ((g.itemsAt key).toList.map Item.handle ++ (g.others key).flatMap Group.handles) := by
  refine ((hf.keyed.groups_perm hk).1.flatMap_right Group.handles).trans (.of_eq ?_)
  rw [handles_itemsAt, List.flatMap_append]
  cases g.group? key <;> simp

theorem not_mem_itemsAt (hk : key.length = g.projection.width)
    (hh : h ∈ (g.others key).flatMap Group.handles) :
    h ∉ (g.itemsAt key).toList.map Item.handle := fun hm =>
  (List.nodup_append.1 ((hf.handles_perm hk).nodup_iff.1 hf.nodup)).2.2 h hm h hh rfl

theorem nodup_cons_itemsAt (hk : key.length = g.projection.width) (hh : h ∉ g.handles) :
    (h :: (g.itemsAt key).toList.map Item.handle).Nodup := by
  have hperm := hf.handles_perm hk
  exact List.nodup_cons.2 ⟨fun hm => hh (hperm.mem_iff.2 (List.mem_append_left _ hm)),
    (List.nodup_append.1 (hperm.nodup_iff.1 hf.nodup)).1⟩

theorem push (hs : source h = some e) (hr : g.Reads e) (hh : h ∉ g.handles) :
    (g.push (g.projection.keyOf e) ⟨g.targetOf e, h⟩).Filed source ∧
      (g.push (g.projection.keyOf e) ⟨g.targetOf e, h⟩).handles.Perm (h :: g.handles) := by
  have hk : (g.projection.keyOf e).length = g.projection.width := Projection.length_keyOf
  have hbears : g.Bears source (g.projection.keyOf e) ⟨g.targetOf e, h⟩ :=
    ⟨e, hs, hr, Std.ReflCmp.compare_self, Std.ReflCmp.compare_self⟩
  generalize g.projection.keyOf e = key at hk hbears
  generalize hitem : (⟨g.targetOf e, h⟩ : Item) = item at hbears
  have hhandle : item.handle = h := by rw [← hitem]
  obtain ⟨horder, hplaced⟩ := hf.inOrder_itemsAt hk
  have hperm := hf.handles_perm hk
  have hcons : (item.handle :: (g.itemsAt key).toList.map Item.handle).Nodup :=
    hhandle ▸ hf.nodup_cons_itemsAt hk hh
  have hl := Heap.push_leaves horder hf.table hcons hplaced
  have hkept : (((g.itemsAt key).toList ++ [item]).map Item.handle).Perm
      (h :: (g.itemsAt key).toList.map Item.handle) := by
    rw [List.map_append, ← hhandle]
    exact List.perm_append_singleton _ _
  have hhandles : (g.push key item).handles.Perm (h :: g.handles) := by
    rw [push_eq_replace]
    refine (hf.handles_replace hk hl).trans ((hkept.append_right _).trans ?_)
    exact (hperm.cons h).symm
  refine ⟨hf.replace hk hl ?_ ?_ ?_ ?_ ?_, hhandles⟩
  · intro x hx
    rcases List.mem_append.1 hx with hx | hx
    · exact hf.bears_itemsAt hk x (Array.mem_toList_iff.1 hx)
    · exact List.mem_singleton.1 hx ▸ hbears
  · exact hkept.nodup_iff.2 (hhandle ▸ hcons)
  · refine fun k hm => ⟨fun hx => ?_, rfl⟩
    rcases List.mem_cons.1 (hkept.mem_iff.1 hx) with rfl | hx
    · exact hh (hperm.mem_iff.2 (List.mem_append_right _ hm))
    · exact hf.not_mem_itemsAt hk hm hx
  · intro k hsome hx
    rcases List.mem_append.1 (hperm.mem_iff.1 (hf.known k hsome)) with hm | hm
    · exact absurd (hkept.mem_iff.2 (List.mem_cons_of_mem _ hm)) hx
    · exact hm
  · rw [← push_eq_replace, hhandles.length_eq, List.length_cons, ← hf.entries]
    split <;> rfl

theorem isSome_placeOf_iff : (Heap.placeOf h g.places).isSome ↔ h ∈ g.handles := by
  refine ⟨hf.known h, fun hh => ?_⟩
  obtain ⟨group, hg, hm⟩ := mem_handles_iff.1 hh
  obtain ⟨item, hi, rfl⟩ := List.mem_map.1 hm
  obtain ⟨j, hj, rfl⟩ := Array.mem_iff_getElem.1 (Array.mem_toList_iff.1 hi)
  rw [(hf.kept group hg).placed j hj]
  rfl

theorem places_perm : (g.places.map Prod.fst).Perm g.handles := by
  have hmem (k : Handle) : k ∈ g.places.map Prod.fst ↔ k ∈ g.handles := by
    rw [← hf.isSome_placeOf_iff, List.mem_map]
    constructor
    · rintro ⟨row, hr, rfl⟩
      rw [Heap.placeOf, OrderedTable.find?_of_mem hf.table hr Std.ReflCmp.compare_self]
      rfl
    · intro hsome
      obtain ⟨i, hi⟩ := Option.isSome_iff_exists.1 hsome
      obtain ⟨other, hm, level⟩ := OrderedTable.exists_of_find? hf.table hi
      exact ⟨(other, i), hm, (Std.LawfulEqCmp.eq_of_compare level).symm⟩
  exact (List.perm_ext_iff_of_nodup (OrderedTable.nodup_keys hf.table) hf.nodup).2 hmem

theorem length_places : g.places.length = g.handles.length := by
  rw [← List.length_map Prod.fst]
  exact hf.places_perm.length_eq

/-- The group and the place of a handle. -/
theorem exists_place (hs : source h = some e) (hh : h ∈ g.handles) : ∃ group i,
    g.group? (g.projection.keyOf e) = some group ∧ Heap.placeOf h g.places = some i ∧
    ∃ hi : i < group.items.size, group.items[i].handle = h := by
  obtain ⟨group, hg, hm⟩ := mem_handles_iff.1 hh
  obtain ⟨item, hi, rfl, e', hs', _, level, _⟩ := hf.exists_bears hg hm
  obtain rfl := Option.some.inj (hs.symm.trans hs')
  obtain ⟨i, hlt, rfl⟩ := Array.mem_iff_getElem.1 hi
  exact ⟨group, i, (hf.keyed.group?_eq_some_iff Projection.length_keyOf).2 ⟨hg, level⟩,
    (hf.kept group hg).placed i hlt, hlt, rfl⟩

/-- A removal under the entry of a handle takes out the item at its place. -/
theorem exists_pull (hs : source h = some e) (hh : h ∈ g.handles) : ∃ i,
    Heap.placeOf h g.places = some i ∧
    (∃ hi : i < (g.itemsAt (g.projection.keyOf e)).size,
      (g.itemsAt (g.projection.keyOf e))[i].handle = h) ∧
    g.remove? h e = .ok (some (g.pull (g.projection.keyOf e) h i)) := by
  obtain ⟨e', hs', hr⟩ := hf.exists_entry hh
  obtain rfl := Option.some.inj (hs.symm.trans hs')
  obtain ⟨group, i, hgroup, hplace, hi, hhandle⟩ := hf.exists_place hs hh
  have hitems : g.itemsAt (g.projection.keyOf e) = group.items := by rw [itemsAt, hgroup]
  have hfind : OrderedTable.find? Handle.compare h g.places = some i := hplace
  refine ⟨i, hplace, ⟨hitems ▸ hi, by simpa only [hitems] using hhandle⟩, ?_⟩
  rw [remove?, Projection.project_eq hr.fits, Checked.ok_bind]
  simp only [hgroup, hfind, Option.bind_eq_bind, Option.bind_some, Array.getElem?_eq_getElem hi,
    hhandle, ne_eq, not_true_eq_false, if_false, pull, hitems]
  rfl

/-- A handle is taken out of the groups by a removal under its own entry. -/
theorem remove?_eq (hs : source h = some e) (hh : h ∈ g.handles) :
    ∃ after, g.remove? h e = .ok (some after) ∧ after.Filed source ∧
      after.handles.Perm (g.handles.erase h) ∧ after.projection = g.projection ∧
      after.target = g.target ∧ after.order = g.order := by
  obtain ⟨i, -, ⟨hi, hhandle⟩, hremove⟩ := hf.exists_pull hs hh
  have hk : (g.projection.keyOf e).length = g.projection.width := Projection.length_keyOf
  refine ⟨_, hremove, ?_⟩
  clear hremove
  generalize g.projection.keyOf e = key at hk hi hhandle
  obtain ⟨horder, hplaced⟩ := hf.inOrder_itemsAt hk
  have hbears := hf.bears_itemsAt hk
  have hperm := hf.handles_perm hk
  have hnodup := (List.nodup_append.1 (hperm.nodup_iff.1 hf.nodup)).1
  obtain ⟨hcons, hl⟩ := Heap.removeAt_leaves_erase horder hf.table hnodup hplaced hi hhandle
  have hplaces (k : Handle) (hne : k ≠ h) :
      Heap.placeOf k (OrderedTable.erase Handle.compare h g.places) = Heap.placeOf k g.places :=
    (Heap.placeOf_erase hf.table h).trans (if_neg hne)
  have hhandles : (g.pull key h i).handles.Perm (g.handles.erase h) := by
    refine (hf.handles_replace hk hl).trans ?_
    refine (List.cons_perm_iff_perm_erase.1 ?_).2
    exact (hcons.append_right _).trans hperm.symm
  refine ⟨hf.replace hk hl ?_ ?_ ?_ ?_ ?_, hhandles, rfl, rfl, rfl⟩
  · exact fun x hx => hbears x (Array.mem_toList_iff.1 (List.mem_of_mem_eraseIdx hx))
  · exact (List.nodup_cons.1 (hcons.nodup_iff.2 hnodup)).2
  · refine fun k hm => ⟨fun hx => ?_, hplaces k ?_⟩
    · exact hf.not_mem_itemsAt hk hm (hcons.mem_iff.1 (List.mem_cons_of_mem _ hx))
    · rintro rfl
      exact hf.not_mem_itemsAt hk hm (hcons.mem_iff.1 List.mem_cons_self)
  · intro k hsome hx
    have hne : k ≠ h := by
      rintro rfl
      rw [(Heap.placeOf_erase hf.table k).trans (if_pos rfl)] at hsome
      cases hsome
    rw [hplaces k hne] at hsome
    rcases List.mem_append.1 (hperm.mem_iff.1 (hf.known k hsome)) with hm | hm
    · rcases List.mem_cons.1 (hcons.mem_iff.2 hm) with hm | hm
      · exact absurd hm hne
      · exact absurd hm hx
    · exact hm
  · refine Eq.trans ?_ hhandles.length_eq.symm
    rw [List.length_erase_of_mem hh, ← hf.entries]
    simp only [Tally.removeEntry]
    split <;> rfl

theorem congr (hk : ∀ h ∈ g.handles, ∀ e, source h = some e → ∃ e', after h = some e' ∧
    g.Reads e' ∧ Key.compare (g.projection.keyOf e) (g.projection.keyOf e') = .eq ∧
    Value.compare (g.targetOf e) (g.targetOf e') = .eq) : g.Filed after :=
  { hf with
    kept := fun group hg => by
      obtain ⟨hpos, horder, hplaced, hbears⟩ := hf.kept group hg
      refine ⟨hpos, horder, hplaced, fun item hi => ?_⟩
      obtain ⟨e, hs, _, hkey, hvalue⟩ := hbears item hi
      have hh : item.handle ∈ g.handles := mem_handles_iff.2
        ⟨group, hg, List.mem_map_of_mem (Array.mem_toList_iff.2 hi)⟩
      obtain ⟨e', hs', hr, level, htarget⟩ := hk _ hh e hs
      exact ⟨e', hs', hr, Std.TransCmp.eq_trans (Std.OrientedCmp.eq_symm level) hkey,
        Std.TransCmp.eq_trans hvalue htarget⟩ }

end Filed

/-! ## Peeks -/

def itemOf (g : GroupHeaps) (h : Handle) (e : Entry) : Item := ⟨g.targetOf e, h⟩

/-- The groups whose root a peek looks at. -/
def peeked (g : GroupHeaps) (probe : Key) : List Group :=
  if probe.isPartial then g.reached probe else (g.group? probe).toList

theorem peek_eq {probe : Entry} (hfit : g.projection.Fits probe) : g.peek probe = .ok
    ((Item.first? g.order ((g.peeked (g.projection.keyOf probe)).filterMap
      fun group => group.items[0]?)).map Item.handle) := by
  rw [peek, Projection.project_eq hfit, Checked.ok_bind]
  rfl

namespace Keyed

variable (hf : g.Keyed)
include hf

theorem mem_peeked_iff {probe : Key} (hk : probe.length = g.projection.width) :
    group ∈ g.peeked probe ↔ group ∈ g.groups ∧ probe.selects group.key = true := by
  rw [peeked, Key.selects]
  split
  · rw [reached, List.mem_filter]
  · rw [Option.mem_toList, hf.group?_eq_some_iff hk, Ordering.isEq_iff_eq_eq]

theorem peek_spec {probe : Entry} (hfit : g.projection.Fits probe)
    (ho : ∀ group ∈ g.groups, Heap.InOrder g.order group.items) :
    ∃ found : Option Item, g.peek probe = .ok (found.map Item.handle) ∧ match found with
      | none => ∀ group ∈ g.groups, (g.projection.keyOf probe).selects group.key = false
      | some best => (∃ group ∈ g.groups,
          (g.projection.keyOf probe).selects group.key = true ∧ best ∈ group.items) ∧
          ∀ group ∈ g.groups, (g.projection.keyOf probe).selects group.key = true →
            ∀ item ∈ group.items, item.isBefore g.order best = false := by
  have hk : (g.projection.keyOf probe).length = g.projection.width := Projection.length_keyOf
  refine ⟨_, peek_eq hfit, ?_⟩
  generalize g.projection.keyOf probe = key at hk
  have hroot {group : Group} (hg : group ∈ g.groups) (hsel : key.selects group.key = true) :
      ∃ hpos : 0 < group.items.size, group.items[0] ∈
        (g.peeked key).filterMap fun group => group.items[0]? := by
    have hpos := hf.occupied group hg
    exact ⟨hpos, List.mem_filterMap.2
      ⟨group, (hf.mem_peeked_iff hk).2 ⟨hg, hsel⟩, Array.getElem?_eq_getElem hpos⟩⟩
  cases hfirst : Item.first? g.order ((g.peeked key).filterMap fun group => group.items[0]?) with
  | none =>
    intro group hg
    rw [Item.first?_eq_none_iff] at hfirst
    refine eq_false_of_ne_true fun hsel => ?_
    obtain ⟨_, hm⟩ := hroot hg hsel
    rw [hfirst] at hm
    cases hm
  | some best =>
    obtain ⟨hbest, hmin⟩ := Item.first?_spec hfirst
    obtain ⟨group, hg, hitem⟩ := List.mem_filterMap.1 hbest
    obtain ⟨hmem, hsel⟩ := (hf.mem_peeked_iff hk).1 hg
    refine ⟨⟨group, hmem, hsel, Array.mem_of_getElem? hitem⟩, fun other ho' hsel' item hi => ?_⟩
    obtain ⟨hpos, hm⟩ := hroot ho' hsel'
    exact Item.not_isBefore_trans ((ho other ho').root hpos hi) (hmin _ hm)

end Keyed

namespace Filed

variable (hf : g.Filed source)
include hf

/-- A peek answers the foremost of the handles that its key looks for. -/
theorem peek_spec {probe : Entry} (hfit : g.projection.Fits probe) :
    ∃ found, g.peek probe = .ok found ∧ match found with
      | none => ∀ h ∈ g.handles, ∀ e, source h = some e →
          (g.projection.keyOf probe).selects (g.projection.keyOf e) = false
      | some best => best ∈ g.handles ∧ ∃ e, source best = some e ∧
          (g.projection.keyOf probe).selects (g.projection.keyOf e) = true ∧
          ∀ h ∈ g.handles, ∀ e', source h = some e' →
            (g.projection.keyOf probe).selects (g.projection.keyOf e') = true →
            (g.itemOf h e').isBefore g.order (g.itemOf best e) = false := by
  have hitem {h : Handle} {e : Entry} (hh : h ∈ g.handles) (hs : source h = some e) :
      ∃ group ∈ g.groups, Key.compare (g.projection.keyOf e) group.key = .eq ∧
        ∃ item ∈ group.items, item.handle = h ∧ Value.compare item.value (g.targetOf e) = .eq := by
    obtain ⟨group, hg, hm⟩ := mem_handles_iff.1 hh
    obtain ⟨item, hi, hhandle, e', hs', _, level, hvalue⟩ := hf.exists_bears hg hm
    obtain rfl := Option.some.inj (hs.symm.trans (hhandle ▸ hs'))
    exact ⟨group, hg, level, item, hi, hhandle, hvalue⟩
  obtain ⟨found, hpeek, hfound⟩ :=
    hf.keyed.peek_spec hfit fun group hg => (hf.kept group hg).inOrder
  refine ⟨_, hpeek, ?_⟩
  cases found with
  | none =>
    intro h hh e hs
    obtain ⟨group, hg, level, _⟩ := hitem hh hs
    exact (Key.selects_congr level _).trans (hfound group hg)
  | some best =>
    obtain ⟨⟨group, hg, hsel, hi⟩, hmin⟩ := hfound
    obtain ⟨e, hs, _, level, hvalue⟩ := (hf.kept group hg).bears best hi
    refine ⟨mem_handles_iff.2 ⟨group, hg, List.mem_map_of_mem (Array.mem_toList_iff.2 hi)⟩,
      e, hs, (Key.selects_congr level _).trans hsel, fun h hh e' hs' hsel' => ?_⟩
    obtain ⟨other, ho, level', item, hio, hhandle, hval⟩ := hitem hh hs'
    have hbefore := hmin other ho ((Key.selects_congr level' _).symm.trans hsel') item hio
    have hsame : item.isBefore g.order best =
        (g.itemOf h e').isBefore g.order (g.itemOf best.handle e) :=
      Item.isBefore_congr hval hhandle hvalue rfl
    rwa [hsame] at hbefore

end Filed

end IndexedStore.GroupHeaps
