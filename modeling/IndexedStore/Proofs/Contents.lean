import Mathlib.Data.List.Perm.Subperm
import IndexedStore.Proofs.FirstFit
import IndexedStore.Proofs.Runs
import IndexedStore.Proofs.Tolerance
import IndexedStore.Store.Contents

/-!
# Contents of a store

A store is compared with another one entry by entry, through the primary index of the other. The
probe of an entry leaves its doubles open, so it reaches every entry close to it, whatever the kind
of the index: the comparison is a first fit of the two lists of entries, each in the order of its
own primary index.
-/
namespace IndexedStore

namespace Entry

variable {c e : Entry} {shape : Shape}

theorem conforms_withoutDoubles (he : e.Conforms shape) : e.withoutDoubles.Conforms shape := by
  refine ⟨?_, he.shape_eq⟩
  rw [Typed, withoutDoubles, List.map_map, ← he.typed]
  refine List.map_congr_left fun v _ => ?_
  cases v <;> rfl

theorem valueAt_withoutDoubles (e : Entry) (o : Nat) : e.withoutDoubles.valueAt o =
    if (e.valueAt o).isDouble then .unset .double else e.valueAt o := by
  rw [valueAt, valueAt, withoutDoubles, List.getD_eq_getElem?_getD, List.getD_eq_getElem?_getD,
    List.getElem?_map]
  cases e.values[o]? with
  | none => rfl
  | some v => cases v <;> rfl

/-- At every offset the probe of an entry is open, or has the value of each entry close to it. -/
theorem open_or_same_of_isClose (hc : c.Conforms shape) (he : e.Conforms shape)
    (h : c.isClose e = true) (o : Nat) : (e.withoutDoubles.valueAt o).isUnset = true ∨
      (c.valueAt o).isUnset = false ∧ (e.withoutDoubles.valueAt o).same (c.valueAt o) = true := by
  have hclose := isClose_valueAt hc he h o
  rw [valueAt_withoutDoubles]
  cases hd : (e.valueAt o).isDouble with
  | true => exact .inl rfl
  | false =>
    have hsame : (e.valueAt o).same (c.valueAt o) = true := by
      rw [← Value.isClose_eq_same hd, Value.isClose_comm]
      exact hclose
    have hunset := Value.isUnset_eq (Value.same_eq_true_iff.1 hsame)
    cases hu : (e.valueAt o).isUnset with
    | true => exact .inl hu
    | false => exact .inr ⟨hunset.symm.trans hu, hsame⟩

end Entry

/-! ## Probes for close entries -/

namespace Index

variable {i : Index} {source : Source} {shape : Shape} {h : Handle} {c e : Entry}

theorem Sound.mem_hits_of_isClose (hi : i.Sound source) (hr : i.Reads shape)
    (hs : source.Conforms shape) (he : e.Conforms shape) (hc : source h = some c)
    (hclose : c.isClose e = true) : h ∈ i.hits source e.withoutDoubles := by
  have hvalues := Entry.open_or_same_of_isClose (hs hc) he hclose
  refine (hi.mem_hits_iff hr hs (Entry.conforms_withoutDoubles he) hc ?_).2 ?_
  · rw [or_iff_not_imp_left, Projection.isPartial_keyOf, Projection.isPartial_keyOf]
    intro hfull
    refine List.any_eq_false.2 fun o ho hu => hfull (List.any_eq_true.2 ⟨o, ho, ?_⟩)
    exact (hvalues o).resolve_right fun hset => by simp [hu] at hset
  · rw [Projection.agrees_keyOf, List.all_eq_true]
    intro o _
    obtain hopen | ⟨_, hsame⟩ := hvalues o
    · simp [hopen]
    · simp [hsame]

end Index

/-! ## Entries in order and in any order -/

namespace Store

variable {s : Store} {e : Entry} {es : List Entry}

def entries (s : Store) : List Entry := s.toList.map Prod.snd

/-- All entries of a store, in no order. -/
def contents (s : Store) : Multiset Entry := ↑(s.slab.toList.map Prod.snd)

section Entries

variable (hs : s.Invariant)
include hs

theorem Invariant.mem_toList_iff {h : Handle} : (h, e) ∈ s.toList ↔ s.source h = some e := by
  obtain ⟨hhandles, hitems⟩ := hs.toList_spec
  refine ⟨hitems _, fun he => ?_⟩
  have hh : h ∈ s.toList.map Prod.fst := by
    rw [hhandles, hs.handles_spec.2, he]
    rfl
  obtain ⟨⟨k, x⟩, hitem, rfl⟩ := List.mem_map.1 hh
  obtain rfl := Option.some.inj (he.symm.trans (hitems _ hitem))
  exact hitem

theorem Invariant.nodup_fst_toList : (s.toList.map Prod.fst).Nodup :=
  hs.toList_spec.1 ▸ hs.handles_spec.1

theorem Invariant.coe_entries : (s.entries : Multiset Entry) = s.contents := by
  refine Multiset.coe_eq_coe.2 (List.Perm.map _ ?_)
  refine (List.perm_ext_iff_of_nodup hs.nodup_fst_toList.of_map
    (Slab.nodup_handles hs.slab).of_map).2 fun item => ?_
  exact hs.mem_toList_iff.trans (Slab.mem_toList_iff hs.slab).symm

theorem Invariant.mem_entries_iff : e ∈ s.entries ↔ e ∈ s.contents := by
  rw [← hs.coe_entries, Multiset.mem_coe]

theorem Invariant.length_entries : s.entries.length = s.size := by
  have hlength := congrArg List.length hs.toList_spec.1
  rw [List.length_map] at hlength
  rw [entries, List.length_map, hlength]
  exact Slab.length_eq_size hs.slab hs.handles_spec.1 hs.handles_spec.2

theorem Invariant.conforms_of_mem (he : e ∈ s.contents) : e.Conforms s.shape := by
  obtain ⟨⟨h, _⟩, hitem, rfl⟩ := List.mem_map.1 (Multiset.mem_coe.1 he)
  exact hs.conforms ((Slab.mem_toList_iff hs.slab).1 hitem)

end Entries

/-! ## Matching -/

def unused (s : Store) (used : List Handle) : List (Handle × Entry) :=
  s.toList.filter fun item => item.1 ∉ used

section Matching

variable (hs : s.Invariant)
include hs

/-- The slice for an entry has the entries close to it, in the order of the primary index. -/
theorem exists_candidates (he : e.Conforms s.shape) :
    ∃ candidates, s.slice 0 e.withoutDoubles = .ok candidates ∧
      (candidates.filter fun item => item.2.isClose e) =
        s.toList.filter fun item => item.2.isClose e := by
  obtain ⟨primary, rest, hprimary⟩ := List.exists_cons_of_ne_nil hs.primary
  have hmem : primary ∈ s.indices := hprimary ▸ List.mem_cons_self
  have hi := hs.sound primary hmem
  have hslice := slice_eq hs (Entry.conforms_withoutDoubles he)
    (show s.indices[0]? = some primary by simp [hprimary])
  refine ⟨_, hslice, ?_⟩
  have hhandles : s.handles = primary.index.handles := by rw [handles, hprimary]
  have hsub : (s.resolve (primary.index.hits s.source e.withoutDoubles)).Sublist s.toList := by
    rw [toList, hhandles]
    exact (Index.hits_sublist hi.filed).filterMap _
  -- Both lists are in the order of the index, so it is enough that no entry is missing.
  refine (hsub.filter _).eq_of_length_le (List.Subperm.length_le ?_)
  refine List.subperm_of_subset (hs.nodup_fst_toList.of_map.filter _) ?_
  rintro ⟨h, c⟩ hitem
  obtain ⟨hitem, hclose⟩ := List.mem_filter.1 hitem
  have hc : s.entry? h = some c := hs.mem_toList_iff.1 hitem
  have hhit := hi.mem_hits_of_isClose (hs.stands primary hmem).reads hs.conforms he hc hclose
  exact List.mem_filter.2 ⟨List.mem_filterMap.2 ⟨h, hhit, by rw [hc]; rfl⟩, hclose⟩

theorem exists_find?_slice (he : e.Conforms s.shape) (used : List Handle) :
    ∃ candidates, s.slice 0 e.withoutDoubles = .ok candidates ∧
      (candidates.find? fun (h, c) => h ∉ used ∧ c.isClose e) =
        (s.unused used).find? fun item => e.isClose item.2 := by
  obtain ⟨candidates, hslice, hclose⟩ := exists_candidates hs he
  refine ⟨candidates, hslice, ?_⟩
  have hfind (items : List (Handle × Entry)) :
      (items.find? fun (h, c) => h ∉ used ∧ c.isClose e) =
        (items.filter fun item => item.2.isClose e).find? fun item => item.1 ∉ used := by
    rw [List.find?_filter]
    congr 1
    funext item
    simp [and_comm]
  rw [hfind, hclose, unused, List.find?_filter, List.find?_filter]
  congr 1
  funext item
  rw [Entry.isClose_comm e]
  simp [and_comm]

theorem unused_cons {used : List Handle} {before after : List (Handle × Entry)} {h : Handle}
    {c : Entry} (hsplit : s.unused used = before ++ (h, c) :: after) :
    s.unused (h :: used) = before ++ after := by
  have hnodup : ((s.unused used).map Prod.fst).Nodup :=
    hs.nodup_fst_toList.sublist (List.filter_sublist.map _)
  have hfilter : s.unused (h :: used) = (s.unused used).filter fun item => item.1 ≠ h := by
    rw [unused, unused, List.filter_filter]
    congr 1
    funext item
    simp
  rw [hsplit, List.map_append, List.map_cons, List.nodup_middle, List.nodup_cons,
    ← List.map_append] at hnodup
  have hothers : ∀ item ∈ before ++ after, item.1 ≠ h := fun item hitem heq =>
    hnodup.1 (List.mem_map.2 ⟨item, hitem, heq⟩)
  rw [hfilter, hsplit, List.filter_append, List.filter_cons_of_neg (by simp), ← List.filter_append]
  exact List.filter_eq_self.2 fun item hitem => by simpa using hothers item hitem

/-- Matching a list of entries with a store takes the first fit for each among its entries. -/
theorem matchAll_eq (hes : ∀ e ∈ es, e.Conforms s.shape) (used : List Handle) :
    s.matchAll used es = .ok (firstFit Entry.isClose es ((s.unused used).map Prod.snd)) := by
  induction es generalizing used with
  | nil => rfl
  | cons e es ih =>
    obtain ⟨candidates, hslice, hfind⟩ := exists_find?_slice hs (hes e List.mem_cons_self) used
    rw [matchAll, hslice, Checked.ok_bind, hfind]
    cases hfirst : (s.unused used).find? fun item => e.isClose item.2 with
    | none =>
      rw [firstFit_of_misfit]
      · rfl
      · intro c hc
        obtain ⟨item, hitem, rfl⟩ := List.mem_map.1 hc
        simpa using List.find?_eq_none.1 hfirst item hitem
    | some item =>
      obtain ⟨h, c⟩ := item
      obtain ⟨hclose, before, after, hsplit, hbefore⟩ := List.find?_eq_some_iff_append.1 hfirst
      rw [hsplit, List.map_append, List.map_cons, firstFit_of_fit _ hclose, ← List.map_append,
        ← unused_cons hs hsplit]
      · exact ih (fun x hx => hes x (List.mem_cons_of_mem _ hx)) (h :: used)
      · intro c hc
        obtain ⟨item, hitem, rfl⟩ := List.mem_map.1 hc
        simpa using hbefore item hitem

end Matching

/-- Whether two stores are of one size, and the entries of the one all find a first fit of their own
among those of the other, each list in the order of its primary index. -/
def fits (a b : Store) : Bool := a.size = b.size && firstFit Entry.isClose a.entries b.entries

/-- The comparison of two stores of one shape always answers, with the outcome of a first fit. -/
theorem sameContents_eq {a b : Store} (ha : a.Invariant) (hb : b.Invariant)
    (hshape : a.shape = b.shape) : a.sameContents b = .ok (a.fits b) := by
  rw [sameContents, fits]
  split
  next hdiffer =>
    have hsize : ¬ a.size = b.size := hdiffer.resolve_left fun h => h hshape
    simp [hsize]
  next hagree =>
    have hsize : a.size = b.size := by
      by_contra h
      exact hagree (.inr h)
    have hconform : ∀ e ∈ a.entries, e.Conforms b.shape := fun e he =>
      hshape ▸ ha.conforms_of_mem (ha.mem_entries_iff.1 he)
    change b.matchAll [] a.entries = _
    rw [matchAll_eq hb hconform]
    simp [hsize, unused, entries]

end Store
end IndexedStore
