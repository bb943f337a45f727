import Mathlib.Data.Multiset.Filter
import IndexedStore.Proofs.Contents
import IndexedStore.Proofs.HeapsOnDemand
import IndexedStore.Proofs.StableOrders

/-!
# What the contents determine

The order in which a store lists its entries depends on their handles and on their arrival. What it
lists does not: two stores of one layout with the same contents answer every slice with the same
entries and every call for a foremost entry with the same target. An address grid and a tree list
the entries by their keys, so as a primary index they list the same keys in the same order.
-/
namespace IndexedStore

namespace Index

variable {i j : Index} {probe e : Entry}

theorem visits_blank : i.blank.visits probe e = i.visits probe e := by
  cases i with
  | array g =>
    have haddress : (AddressGrid.empty g.projection g.axes).addressOf = g.addressOf :=
      funext (AddressGrid.addressOf_of_axes rfl)
    rw [blank, visits, visits, haddress]
    rfl
  | list | hash | tree | heap => rfl

theorem visits_of_blank (hb : j.blank = i.blank) : j.visits probe e = i.visits probe e := by
  rw [← visits_blank, hb, visits_blank]

theorem mem_hits_congr {source after : Source} {shape : Shape} {h : Handle} (hi : i.Sound source)
    (hj : j.Sound after) (hb : j.blank = i.blank) (hr : i.Reads shape)
    (hs : source.Conforms shape) (ha : after.Conforms shape) (hp : probe.Conforms shape)
    (hsame : after h = source h) : h ∈ j.hits after probe ↔ h ∈ i.hits source probe := by
  cases hh : source h with
  | none =>
    exact iff_of_false
      (fun hm => hj.not_mem_handles (hsame.trans hh) (mem_handles_of_mem_hits hj.filed hm))
      fun hm => hi.not_mem_handles hh (mem_handles_of_mem_hits hi.filed hm)
  | some e =>
    rw [hj.mem_hits_iff_visits (hr.congr hb) ha hp (hsame.trans hh),
      hi.mem_hits_iff_visits hr hs hp hh, visits_of_blank hb]

theorem exists_array_of_kind (hk : i.kind = .array) : ∃ g, i = array g := by
  cases i with
  | array g => exact ⟨g, rfl⟩
  | list | hash | tree | heap => cases hk

theorem exists_tree_of_kind (hk : i.kind = .tree) : ∃ rows, i = tree rows := by
  cases i with
  | tree rows => exact ⟨rows, rfl⟩
  | list | hash | array | heap => cases hk

end Index

namespace Store

variable {s t : Store} {shape : Shape} {slot : Nat} {d : Declared} {e probe : Entry}
  {r : HeapRequest} {found : Option Entry}

/-! ## Contents -/

theorem Invariant.mem_contents_iff (hs : s.Invariant) :
    e ∈ s.contents ↔ ∃ h, s.source h = some e := by
  rw [contents, Multiset.mem_coe, List.mem_map]
  constructor
  · rintro ⟨⟨h, _⟩, hitem, rfl⟩
    exact ⟨h, (Slab.mem_toList_iff hs.slab).1 hitem⟩
  · rintro ⟨h, he⟩
    exact ⟨(h, e), (Slab.mem_toList_iff hs.slab).2 he, rfl⟩

theorem entries_eq : s.entries = s.handles.filterMap s.source := by
  rw [entries, toList, resolve, List.map_filterMap]
  refine List.filterMap_congr fun h _ => ?_
  change ((s.source h).map (h, ·)).map Prod.snd = s.source h
  cases s.source h <;> rfl

/-- A slice has the entries among the contents that the index visits for the probe. -/
theorem exists_slice (hs : s.Invariant) (hp : probe.Conforms s.shape)
    (hd : s.indices[slot]? = some d) : ∃ found, s.slice slot probe = .ok found ∧
      ↑(found.map Prod.snd) = s.contents.filter fun e => d.index.visits probe e := by
  have hmem := List.mem_of_getElem? hd
  have hi := hs.sound d hmem
  refine ⟨_, slice_eq hs hp hd, ?_⟩
  obtain ⟨hhandles, hitems⟩ := resolve_spec (s := s) fun h hh =>
    (hi.complete h).1 (Index.mem_handles_of_mem_hits hi.filed hh)
  have hvisits {h : Handle} {e : Entry} (he : s.source h = some e) :=
    hi.mem_hits_iff_visits (hs.stands d hmem).reads hs.conforms hp he
  rw [contents, Multiset.filter_coe, List.filter_map, Multiset.coe_eq_coe]
  refine .map _ ((List.perm_ext_iff_of_nodup (.of_map Prod.fst ?_)
    ((Slab.nodup_handles hs.slab).of_map.filter _)).2 fun item => ?_)
  · rw [hhandles]
    exact hi.nodup_hits probe
  · obtain ⟨h, e⟩ := item
    rw [List.mem_filter, Slab.mem_toList_iff hs.slab]
    constructor
    · intro hitem
      have he := hitems _ hitem
      have hh : h ∈ d.index.hits s.source probe := hhandles ▸ List.mem_map_of_mem hitem
      exact ⟨he, by simpa using (hvisits he).1 hh⟩
    · rintro ⟨he, hvisit⟩
      have he : s.entry? h = some e := he
      refine List.mem_filterMap.2 ⟨h, (hvisits he).2 (by simpa using hvisit), ?_⟩
      rw [he]
      rfl

/-! ## The order of the primary index -/

theorem pairwise_entries {g : AddressGrid} (hf : g.Filed s.source) (hh : s.handles = g.handles) :
    s.entries.Pairwise fun a b => ∃ m n, g.addressOf (g.projection.keyOf a) = some m ∧
      g.addressOf (g.projection.keyOf b) = some n ∧ m < n := by
  rw [entries_eq, hh, AddressGrid.handles, List.pairwise_filterMap, List.pairwise_map]
  refine hf.ascending.imp_of_mem fun {p q} hp hq hlt a ha b hb => ?_
  obtain ⟨a', ha', _, haddress⟩ := hf.placed p hp
  obtain ⟨b', hb', _, haddress'⟩ := hf.placed q hq
  obtain rfl := Option.some.inj (ha.symm.trans ha')
  obtain rfl := Option.some.inj (hb.symm.trans hb')
  exact ⟨p.1, q.1, haddress, haddress', Nat.compare_eq_lt.1 hlt⟩

/-- Address grids with the same slots list the same entries in the same order. -/
theorem entries_eq_of_grids {g g' : AddressGrid} (hf : g.Filed s.source) (hf' : g'.Filed t.source)
    (hh : s.handles = g.handles) (hh' : t.handles = g'.handles)
    (hproj : g'.projection = g.projection) (haxes : g'.axes = g.axes)
    (hperm : s.entries.Perm t.entries) : s.entries = t.entries := by
  have hpairs' := pairwise_entries hf' hh'
  simp only [hproj, AddressGrid.addressOf_of_axes haxes] at hpairs'
  refine hperm.eq_of_pairwise (fun a b _ _ hab hba => ?_) (pairwise_entries hf hh) hpairs'
  obtain ⟨m, n, hm, hn, hlt⟩ := hab
  obtain ⟨n', m', hn', hm', hlt'⟩ := hba
  obtain rfl := Option.some.inj (hm.symm.trans hm')
  obtain rfl := Option.some.inj (hn.symm.trans hn')
  exact absurd hlt (Nat.lt_asymm hlt')

theorem ascends_entries {rows : KeyRows} (hf : rows.Filed s.source) (hh : s.handles = rows.handles) :
    StableOrder.Ascends Key.compare rows.projection.keyOf s.entries := by
  have level {row : Key × List Handle} (hrow : row ∈ rows.rows) {h : Handle} (hm : h ∈ row.2)
      {e : Entry} (he : s.source h = some e) :
      Key.compare (rows.projection.keyOf e) row.1 = .eq := by
    obtain ⟨e', he', _, level⟩ := hf.placed row hrow h hm
    obtain rfl := Option.some.inj (he.symm.trans he')
    exact level
  rw [StableOrder.Ascends, entries_eq, hh, KeyRows.handles, List.pairwise_filterMap,
    List.pairwise_flatMap]
  constructor
  · intro row hrow
    refine List.pairwise_of_forall_mem_list fun h hm k hm' a ha b hb => ?_
    rw [Std.TransCmp.congr_left (level hrow hm ha),
      Std.OrientedCmp.eq_symm (level hrow hm' hb)]
    rfl
  · refine hf.ascending.imp_of_mem fun {row row'} hrow hrow' hlt h hm k hm' a ha b hb => ?_
    rw [Std.TransCmp.congr_left (level hrow hm ha), Std.TransCmp.congr_right (level hrow' hm' hb),
      hlt]
    rfl

/-! ## Foremost entries -/

/-- Whether an entry among some contents comes first by its target among those that match a key; no
entry does if none matches. -/
def ForemostIn (contents : Multiset Entry) (r : HeapRequest) (probe : Entry) :
    Option Entry → Prop
  | none => ∀ e ∈ contents, ¬ probe.Matches r.2.1 e
  | some best => best ∈ contents ∧ probe.Matches r.2.1 best ∧ ∀ e ∈ contents,
      probe.Matches r.2.1 e → (r.1.apply ((best.field r.2.2).compare (e.field r.2.2))).isLE

theorem IsForemost.foremostIn (hs : s.Invariant) (h : s.IsForemost r probe found) :
    ForemostIn s.contents r probe found := by
  obtain ⟨best, hbest, rfl⟩ := h
  cases best with
  | none =>
    intro e he
    obtain ⟨h, hh⟩ := hs.mem_contents_iff.1 he
    exact hbest h e hh
  | some h =>
    obtain ⟨e, he, hmatch, hfirst⟩ := hbest
    have hentry : s.entry? h = some e := he
    rw [Option.bind_some, hentry]
    refine ⟨hs.mem_contents_iff.2 ⟨h, he⟩, hmatch, fun other ho hmatch' => ?_⟩
    obtain ⟨k, hk⟩ := hs.mem_contents_iff.1 ho
    exact (Ordering.isLE_then_iff_and.1 (hfirst k other hk hmatch')).1

/-- Answers to a call for a foremost entry that tell the same target: the same refusal, no entry, or
entries with level values in the target field. -/
inductive LevelAnswers (target : Nat) :
    Except Error (Option Entry) → Except Error (Option Entry) → Prop
  | refused (err : Error) : LevelAnswers target (.error err) (.error err)
  | absent : LevelAnswers target (.ok none) (.ok none)
  | found {a b : Entry} : (a.field target).compare (b.field target) = .eq →
      LevelAnswers target (.ok (some a)) (.ok (some b))

theorem ForemostIn.levelAnswers {contents : Multiset Entry} {a b : Option Entry}
    (ha : ForemostIn contents r probe a) (hb : ForemostIn contents r probe b) :
    LevelAnswers r.2.2 (.ok a) (.ok b) := by
  cases a with
  | none =>
    cases b with
    | none => exact .absent
    | some b => exact absurd hb.2.1 (ha b hb.1)
  | some a =>
    cases b with
    | none => exact absurd ha.2.1 (hb a ha.1)
    | some b =>
      obtain ⟨hmem, hmatch, hfirst⟩ := ha
      obtain ⟨hmem', hmatch', hfirst'⟩ := hb
      have hle := hfirst b hmem' hmatch'
      have hge := hfirst' a hmem hmatch
      refine .found ?_
      cases horder : r.1 with
      | ascending =>
        rw [horder] at hle hge
        exact Std.OrientedCmp.isLE_antisymm hle hge
      | descending =>
        rw [horder, Direction.apply, ← Std.OrientedCmp.eq_swap] at hle hge
        exact Std.OrientedCmp.isLE_antisymm hge hle

theorem extreme_refused (hs : s.Invariant) (hfit : ¬ r.Fits s.shape)
    (hd : ∀ d ∈ s.descriptors, d.form ≠ r.form) (probe : Entry) :
    ∃ err, s.checkHeap r.1 r.2.1 r.2.2 = .error err ∧
      s.extremeOf r probe = .ok (.error err, s) := by
  have hnone := findHeap?_eq_none hd
  cases hcheck : s.checkHeap r.1 r.2.1 r.2.2 with
  | ok => exact absurd ((checkHeap_iff hs).1 hcheck) hfit
  | error err => exact ⟨err, rfl, by simp [extremeOf, extreme, hnone, addHeap, hcheck]⟩

/-! ## Stores of one layout -/

/-- Two stores hold the same entries, visit the same ones for every probe of an index, list the same
keys where the primary index orders by key, and find foremost entries of the same target. -/
structure AnswersAlike (s t : Store) : Prop where
  contents : t.contents = s.contents
  slices : ∀ slot < s.indices.length, ∀ probe, probe.Conforms s.shape → ∃ found found',
    s.slice slot probe = .ok found ∧ t.slice slot probe = .ok found' ∧
    (found.map Prod.snd).Perm (found'.map Prod.snd)
  array_primary : ∀ d, s.descriptors.head? = some d → d.kind = .array → s.entries = t.entries
  tree_primary : ∀ d, s.descriptors.head? = some d → d.kind = .tree →
    List.Forall₂ (Entry.Level (d.keyFields s.shape)) s.entries t.entries
  extremes : ∀ r probe, probe.Conforms s.shape → ∃ answer s' answer' t',
    s.extremeOf r probe = .ok (answer, s') ∧ t.extremeOf r probe = .ok (answer', t') ∧
    LevelAnswers r.2.2 answer answer'

section Layouts

variable (hs : s.Invariant) (ht : t.Invariant) (hshape : t.shape = s.shape)
  (hdesc : t.descriptors = s.descriptors)
include hs ht hshape hdesc

theorem exists_index (hd : s.indices[slot]? = some d) :
    ∃ d', t.indices[slot]? = some d' ∧ d'.index.blank = d.index.blank := by
  have hslot : t.descriptors[slot]? = some d.descriptor := by
    rw [hdesc, descriptors, List.getElem?_map, hd]
    rfl
  rw [descriptors, List.getElem?_map, Option.map_eq_some_iff] at hslot
  obtain ⟨d', hd', hdescriptor⟩ := hslot
  have hbuilt := (hs.stands d (List.mem_of_getElem? hd)).built
  have hbuilt' := (ht.stands d' (List.mem_of_getElem? hd')).built
  rw [hdescriptor, hshape] at hbuilt'
  exact ⟨d', hd', Except.ok.inj (hbuilt'.symm.trans hbuilt)⟩

theorem exists_primary : ∃ d d', d ∈ s.indices ∧ d' ∈ t.indices ∧
    s.descriptors.head? = some d.descriptor ∧ s.handles = d.index.handles ∧
    t.handles = d'.index.handles ∧ d'.index.blank = d.index.blank := by
  obtain ⟨d, rest, hd⟩ := List.exists_cons_of_ne_nil hs.primary
  obtain ⟨d', rest', hd'⟩ := List.exists_cons_of_ne_nil ht.primary
  have hzero : s.indices[0]? = some d := by rw [hd]; rfl
  obtain ⟨_, hfirst, hblank⟩ := exists_index hs ht hshape hdesc hzero
  rw [hd', List.getElem?_cons_zero, Option.some.injEq] at hfirst
  subst hfirst
  exact ⟨d, d', hd ▸ List.mem_cons_self, hd' ▸ List.mem_cons_self, by rw [descriptors, hd]; rfl,
    by rw [handles, hd], by rw [handles, hd'], hblank⟩

variable (hcontents : t.contents = s.contents)
include hcontents

/-- Stores of one layout with the same contents find entries of one target, by the heaps they have
or by those they add, or refuse a call alike. -/
theorem exists_levelAnswers (hp : probe.Conforms s.shape) : ∃ answer s' answer' t',
    s.extremeOf r probe = .ok (answer, s') ∧ t.extremeOf r probe = .ok (answer', t') ∧
    LevelAnswers r.2.2 answer answer' := by
  have hp' : probe.Conforms t.shape := hshape ▸ hp
  have level {a b : Option Entry} (ha : s.IsForemost r probe a) (hb : t.IsForemost r probe b) :
      LevelAnswers r.2.2 (.ok a) (.ok b) :=
    (ha.foremostIn hs).levelAnswers (hcontents ▸ hb.foremostIn ht)
  by_cases hthere : ∃ d ∈ s.descriptors, d.form = r.form
  · obtain ⟨a, hextreme, _, ha⟩ := extreme_served hs hp hthere
    obtain ⟨b, hextreme', _, hb⟩ := extreme_served ht hp' (hdesc ▸ hthere)
    exact ⟨_, _, _, _, hextreme, hextreme', level ha hb⟩
  · have hnew : ∀ d ∈ s.descriptors, d.form ≠ r.form := fun d hd hform => hthere ⟨d, hd, hform⟩
    by_cases hfit : r.Fits s.shape
    · obtain ⟨a, _, hextreme, _, _, _, _, ha⟩ := extreme_demanded hs hp hfit hnew
      obtain ⟨b, _, hextreme', _, _, _, _, hb⟩ :=
        extreme_demanded ht hp' (hshape ▸ hfit) (hdesc ▸ hnew)
      exact ⟨_, _, _, _, hextreme, hextreme', level ha hb⟩
    · obtain ⟨err, hcheck, hextreme⟩ := extreme_refused hs hfit hnew probe
      obtain ⟨err', hcheck', hextreme'⟩ :=
        extreme_refused ht (hshape ▸ hfit) (hdesc ▸ hnew) probe
      rw [checkHeap, hshape, hdesc] at hcheck'
      obtain rfl := Except.error.inj (hcheck.symm.trans hcheck')
      exact ⟨_, _, _, _, hextreme, hextreme', .refused err⟩

/-- Stores of one layout with the same contents list the same keys in the order of their primary
index if it orders them by key; in an address grid, a key has one entry. -/
theorem primary_alike {first : Descriptor} (hfirst : s.descriptors.head? = some first) :
    (first.kind = .array → s.entries = t.entries) ∧ (first.kind = .tree →
      List.Forall₂ (Entry.Level (first.keyFields s.shape)) s.entries t.entries) := by
  obtain ⟨d, d', hd, hd', hhead, hhandles, hhandles', hblank⟩ := exists_primary hs ht hshape hdesc
  obtain rfl := Option.some.inj (hhead.symm.trans hfirst)
  have hf := (hs.sound d hd).filed
  have hf' := (ht.sound d' hd').filed
  have hkind := (hs.stands d hd).describes.1
  have hkind' : d'.index.kind = d.index.kind := by
    rw [← Index.kind_blank, hblank, Index.kind_blank]
  have hperm : s.entries.Perm t.entries := by
    rw [← Multiset.coe_eq_coe, hs.coe_entries, ht.coe_entries, hcontents]
  constructor
  · intro harray
    rw [← hkind] at harray
    obtain ⟨g, hg⟩ := Index.exists_array_of_kind harray
    obtain ⟨g', hg'⟩ := Index.exists_array_of_kind (hkind'.trans harray)
    rw [hg] at hf hhandles hblank
    rw [hg'] at hf' hhandles' hblank
    have hfields : g'.projection = g.projection ∧ g'.axes = g.axes := by
      simpa [Index.blank, AddressGrid.empty] using hblank
    exact entries_eq_of_grids hf hf' hhandles hhandles' hfields.1 hfields.2 hperm
  · intro htree
    rw [← hkind] at htree
    obtain ⟨rows, hrows⟩ := Index.exists_tree_of_kind htree
    obtain ⟨rows', hrows'⟩ := Index.exists_tree_of_kind (hkind'.trans htree)
    have hproj := Index.projection_of_blank hblank
    have level {a b : Entry} := (hs.stands d hd).compare_keyOf_iff (a := a) (b := b)
    rw [hrows] at hf hhandles hproj level
    rw [hrows'] at hf' hhandles' hproj
    have hproj : rows'.projection = rows.projection := hproj
    have hascends := ascends_entries hf' hhandles'
    rw [hproj] at hascends
    exact (StableOrder.forall₂_level_of_perm (ascends_entries hf hhandles) hascends hperm).imp
      fun _ _ => level.1

/-- Stores of one layout with the same contents are alike. -/
theorem answersAlike : s.AnswersAlike t where
  contents := hcontents
  slices slot hslot probe hp := by
    have hd := List.getElem?_eq_getElem hslot
    obtain ⟨d', hd', hblank⟩ := exists_index hs ht hshape hdesc hd
    obtain ⟨found, hslice, hfound⟩ := exists_slice hs hp hd
    obtain ⟨found', hslice', hfound'⟩ := exists_slice ht (hshape ▸ hp) hd'
    refine ⟨found, found', hslice, hslice', Multiset.coe_eq_coe.1 ?_⟩
    simp only [hfound, hfound', hcontents, Index.visits_of_blank hblank]
  array_primary _ hfirst := (primary_alike hs ht hshape hdesc hcontents hfirst).1
  tree_primary _ hfirst := (primary_alike hs ht hshape hdesc hcontents hfirst).2
  extremes _ _ hp := exists_levelAnswers hs ht hshape hdesc hcontents hp

end Layouts

end Store
end IndexedStore
