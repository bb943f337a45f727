import IndexedStore.Proofs.Indices

/-!
# Lookups

What a probe visits in an index whose handles stand where they belong, index by index. A lookup for
one handle answers the first handle the probe visits; a heap answers the foremost one instead.
-/
namespace IndexedStore.Index

variable {i j : Index} {source : Source} {shape : Shape} {h : Handle} {e probe : Entry}

/-- The handles a probe visits, in the order of the index. -/
def hits (source : Source) (probe : Entry) : Index → List Handle
  | .list l => l.handles.filter (l.projection.meets source probe)
  | .hash c =>
    if (c.projection.keyOf probe).isPartial then
      c.handles.filter (c.projection.meets source probe)
    else (c.chain (c.projection.keyOf probe).hash).filter (c.projection.meets source probe)
  | .tree r =>
    (r.rows.filter fun row => (r.projection.keyOf probe).selects row.1).flatMap Prod.snd
  | .array g =>
    if (g.projection.keyOf probe).isPartial then
      g.handles.filter (g.projection.meets source probe)
    else ((g.addressOf (g.projection.keyOf probe)).bind g.holder?).toList
  | .heap g =>
    (g.reached (g.projection.keyOf probe)).flatMap fun group => group.items.toList.map Item.handle

/-- Whether a probe visits an entry, which depends on the keys of the two. A fully set probe visits
in a hash index what agrees with it in its chain, in an array index what has its address. -/
def visits (probe e : Entry) : Index → Bool
  | .list l => (l.projection.keyOf probe).agrees (l.projection.keyOf e)
  | .hash c => (c.projection.keyOf probe).agrees (c.projection.keyOf e) &&
      ((c.projection.keyOf probe).isPartial ||
        (c.projection.keyOf e).hash = (c.projection.keyOf probe).hash)
  | .tree r => (r.projection.keyOf probe).selects (r.projection.keyOf e)
  | .array g =>
    if (g.projection.keyOf probe).isPartial then
      (g.projection.keyOf probe).agrees (g.projection.keyOf e)
    else (g.addressOf (g.projection.keyOf probe)).any fun address =>
      g.addressOf (g.projection.keyOf e) = some address
  | .heap g => (g.projection.keyOf probe).agrees (g.projection.keyOf e)

namespace Filed

variable (hf : i.Filed source) (hr : i.Reads shape) (hs : source.Conforms shape)
  (hp : probe.Conforms shape)

theorem reaches_array {g : AddressGrid} (hf : g.Filed source) (hfit : g.projection.Fits probe)
    (hh : h ∈ g.handles) :
    g.projection.reaches source probe h = .ok (g.projection.meets source probe h) := by
  obtain ⟨e, he, hfit'⟩ := hf.exists_entry hh
  apply Projection.reaches_eq hfit
  intro x hx
  obtain rfl := Option.some.inj (he.symm.trans hx)
  exact hfit'

include hf hr hs hp

/-- A slice visits every handle once that the order of the index has for the probe. -/
theorem slice_eq : i.slice source probe = .ok (i.hits source probe) := by
  have hfit := hr.fits hp
  cases i with
  | list l => exact ScanList.Filed.slice_eq hf hfit
  | hash c =>
    rw [hits]
    cases hpartial : (c.projection.keyOf probe).isPartial
    · exact HashChains.slice_full hf hfit hpartial
    · exact HashChains.slice_partial hf hfit hpartial
  | tree r => exact KeyRows.slice_eq hf hs hp hfit
  | array g =>
    have hfit : g.projection.Fits probe := hfit
    rw [slice, AddressGrid.slice, Projection.isPartial_eq hfit, Checked.ok_bind, hits]
    cases (g.projection.keyOf probe).isPartial
    · rw [AddressGrid.lookup_eq hfit]
      rfl
    · exact keep_eq_filter fun h hh => reaches_array hf hfit hh
  | heap g =>
    have hfit : g.projection.Fits probe := hfit
    rw [slice, GroupHeaps.slice, Projection.project_eq hfit]
    rfl

theorem get_eq_head? (hk : i.kind.isHeap = false) :
    i.get source probe = .ok (i.hits source probe).head? := by
  have hfit := hr.fits hp
  have hslice := slice_eq hf hr hs hp
  cases i with
  | list l => exact ScanList.Filed.get_eq hf hfit
  | hash c => exact HashChains.get_eq_head? hf hfit hslice
  | tree r => exact KeyRows.first_eq_head? hf hs hp hfit hslice
  | array g =>
    have hfit : g.projection.Fits probe := hfit
    rw [get, AddressGrid.get, Projection.isPartial_eq hfit, Checked.ok_bind, hits]
    cases (g.projection.keyOf probe).isPartial
    · rw [AddressGrid.lookup_eq hfit]
      change Except.ok ((g.addressOf (g.projection.keyOf probe)).bind g.holder?) =
        .ok ((g.addressOf (g.projection.keyOf probe)).bind g.holder?).toList.head?
      rw [Option.head?_toList]
    · rw [if_pos rfl, if_pos rfl, List.head?_filter]
      exact Checked.findM?_eq_find? fun h hh => reaches_array hf hfit hh
  | heap g => cases hk

theorem exists_get : ∃ found, i.get source probe = .ok found := by
  cases hk : i.kind.isHeap with
  | false => exact ⟨_, get_eq_head? hf hr hs hp hk⟩
  | true =>
    cases i with
    | heap g => exact ⟨_, GroupHeaps.peek_eq (hr.fits hp)⟩
    | list | hash | tree | array => cases hk

end Filed

theorem hits_sublist (hf : i.Filed source) : (i.hits source probe).Sublist i.handles := by
  cases i with
  | list l => exact List.filter_sublist
  | hash c =>
    have hf : c.Filed source := hf
    rw [hits]
    split
    · exact List.filter_sublist
    · exact List.filter_sublist.trans (OrderedTable.listAt_sublist hf.ascending)
  | tree r => exact List.filter_sublist.flatMap Prod.snd
  | array g =>
    have hf : g.Filed source := hf
    rw [hits]
    split
    · exact List.filter_sublist
    · cases hx : (g.addressOf (g.projection.keyOf probe)).bind g.holder? with
      | none => exact List.nil_sublist _
      | some h =>
        obtain ⟨address, _, hholder⟩ := Option.bind_eq_some_iff.1 hx
        exact List.singleton_sublist.2
          (AddressGrid.mem_handles_iff.2 ⟨address, hf.holder?_eq_some_iff.1 hholder⟩)
  | heap g => exact List.filter_sublist.flatMap Group.handles

theorem mem_handles_of_mem_hits (hf : i.Filed source) (hh : h ∈ i.hits source probe) :
    h ∈ i.handles := (hits_sublist hf).subset hh

/-! ## What a lookup asks for -/

section Sources

variable {after : Source} (hf : i.Filed source) (hfit : i.projection.Fits probe)
  (hs : ∀ k ∈ i.handles, after k = source k)
include hf hfit hs

/-- An index asks a source about the handles it holds only. -/
theorem slice_congr : i.slice after probe = i.slice source probe := by
  have hreaches (k : Handle) (hk : k ∈ i.handles) :
      i.projection.reaches after probe k = i.projection.reaches source probe k := by
    rw [Projection.reaches, hs k hk, Projection.reaches]
  cases i with
  | list l => exact Checked.keep_congr hreaches
  | hash c =>
    obtain ⟨found, hfound, hmem⟩ := HashChains.exists_candidates hf hfit
    rw [slice, slice, HashChains.slice, HashChains.slice, hfound]
    exact Checked.keep_congr fun k hk => hreaches k (hmem k hk)
  | array g =>
    have hkeep : keep (g.projection.reaches after probe) g.handles =
        keep (g.projection.reaches source probe) g.handles := Checked.keep_congr hreaches
    rw [slice, slice, AddressGrid.slice, AddressGrid.slice, hkeep]
  | tree | heap => rfl

theorem get_congr : i.get after probe = i.get source probe := by
  have hreaches (k : Handle) (hk : k ∈ i.handles) :
      i.projection.reaches after probe k = i.projection.reaches source probe k := by
    rw [Projection.reaches, hs k hk, Projection.reaches]
  cases i with
  | list l => exact Checked.findM?_congr hreaches
  | hash c =>
    obtain ⟨found, hfound, hmem⟩ := HashChains.exists_candidates hf hfit
    rw [get, get, HashChains.get, HashChains.get, hfound]
    exact Checked.findM?_congr fun k hk => hreaches k (hmem k hk)
  | array g =>
    have hfind : g.handles.findM? (g.projection.reaches after probe) =
        g.handles.findM? (g.projection.reaches source probe) := Checked.findM?_congr hreaches
    rw [get, get, AddressGrid.get, AddressGrid.get, hfind]
  | tree | heap => rfl

end Sources

/-! ## The handles a probe visits -/

namespace Sound

variable (hi : i.Sound source)
include hi

theorem nodup_hits (probe : Entry) : (i.hits source probe).Nodup :=
  hi.nodup.sublist (hits_sublist hi.filed)

theorem mem_hits_iff_visits (hr : i.Reads shape) (hs : source.Conforms shape)
    (hp : probe.Conforms shape) (he : source h = some e) :
    h ∈ i.hits source probe ↔ i.visits probe e = true := by
  have hh : h ∈ i.handles := (hi.complete h).2 (by simp [he])
  have hfilter {π : Projection} {handles : List Handle} :
      h ∈ handles.filter (π.meets source probe) ↔
        h ∈ handles ∧ (π.keyOf probe).agrees (π.keyOf e) = true := by
    rw [List.mem_filter, Projection.meets, he, Option.any_some]
  cases i with
  | list l => exact hfilter.trans (and_iff_right hh)
  | hash c =>
    have hf : c.Filed source := hi.filed
    rw [hits, visits]
    split
    next hpartial =>
      rw [hpartial, Bool.true_or, Bool.and_true]
      exact hfilter.trans (and_iff_right hh)
    next hfull =>
      rw [eq_false_of_ne_true hfull, Bool.false_or, Bool.and_eq_true, decide_eq_true_eq, and_comm]
      exact hfilter.trans (and_congr_left fun _ =>
        (hf.mem_chain_iff he).trans (and_iff_right hh))
  | tree r =>
    have hf : r.Filed source := hi.filed
    have hfit : r.projection.Fits probe := hr.fits hp
    have hmem := KeyRows.mem_slice_iff hf hs hp hfit (KeyRows.slice_eq hf hs hp hfit) he
    exact hmem.trans (and_iff_right hh)
  | array g =>
    have hf : g.Filed source := hi.filed
    rw [hits, visits]
    split
    next => exact hfilter.trans (and_iff_right hh)
    next =>
      rw [Option.mem_toList, Option.bind_eq_some_iff, Option.any_eq_true]
      refine exists_congr fun address => and_congr_right fun _ => ?_
      rw [decide_eq_true_eq]
      exact (hf.holder?_iff he).trans (and_iff_right hh)
  | heap g =>
    have hf : g.Filed source := hi.filed
    have level {group : Group} (hg : group ∈ g.groups) (hm : h ∈ group.handles) :
        (g.projection.keyOf probe).agrees (g.projection.keyOf e) =
          (g.projection.keyOf probe).agrees group.key := by
      obtain ⟨_, _, hhandle, e', he', _, level, _⟩ := hf.exists_bears hg hm
      obtain rfl := Option.some.inj (he.symm.trans (hhandle ▸ he'))
      exact Key.agrees_eq level _
    rw [hits, visits, List.mem_flatMap]
    constructor
    · rintro ⟨group, hg, hm⟩
      obtain ⟨hg, hagrees⟩ := List.mem_filter.1 hg
      exact (level hg hm).trans hagrees
    · intro hagrees
      obtain ⟨group, hg, hm⟩ := GroupHeaps.mem_handles_iff.1 hh
      exact ⟨group, List.mem_filter.2 ⟨hg, (level hg hm).symm.trans hagrees⟩, hm⟩

/-- A probe visits the live handles whose entry agrees with it, where one of the two has a wildcard
in its key only if the probe has. -/
theorem mem_hits_iff (hr : i.Reads shape) (hs : source.Conforms shape) (hp : probe.Conforms shape)
    (he : source h = some e) (hkeys : (i.projection.keyOf probe).isPartial = true ∨
      (i.projection.keyOf e).isPartial = false) :
    h ∈ i.hits source probe ↔
      (i.projection.keyOf probe).agrees (i.projection.keyOf e) = true := by
  rw [hi.mem_hits_iff_visits hr hs hp he]
  have hlength : (i.projection.keyOf probe).length = (i.projection.keyOf e).length := by
    rw [Projection.length_keyOf, Projection.length_keyOf]
  have hselects := Key.selects_eq_agrees hlength hkeys
  have hlevel (hfull : ¬ (i.projection.keyOf probe).isPartial = true) :
      (i.projection.keyOf probe).agrees (i.projection.keyOf e) = true ↔
        Key.compare (i.projection.keyOf probe) (i.projection.keyOf e) = .eq := by
    rw [← hselects, Key.selects, if_neg hfull, Ordering.isEq_iff_eq_eq]
  cases i with
  | list | heap => rfl
  | tree r => exact Bool.eq_iff_iff.1 hselects
  | hash c =>
    rw [visits, Bool.and_eq_true]
    refine and_iff_left_of_imp fun hagrees => ?_
    cases hpartial : (c.projection.keyOf probe).isPartial with
    | true => rfl
    | false =>
      -- Full keys that agree are level, so the probe looks into the chain of the entry.
      have hhash : (c.projection.keyOf probe).hash = (c.projection.keyOf e).hash :=
        Key.hash_eq ((hlevel (ne_true_of_eq_false hpartial)).1 hagrees)
      rw [Bool.false_or, decide_eq_true_eq, hhash]
  | array g =>
    rw [visits]
    split
    next => rfl
    next hfull =>
      refine .trans ?_ (hlevel hfull).symm
      rw [Option.any_eq_true]
      constructor
      · rintro ⟨address, hprobe, hentry⟩
        refine AddressGrid.compare_eq_of_addressOf ?_ (Projection.types_keyOf hp (hs he)) hprobe
          (of_decide_eq_true hentry)
        rw [Projection.length_keyOf]
        exact hr.form.symm
      · intro level
        obtain ⟨address, haddress⟩ := (hi.admitted h e he).inBounds
        exact ⟨address, (AddressGrid.addressOf_congr level).trans haddress,
          decide_eq_true haddress⟩

end Sound

/-! ## Indices without an order of arrival -/

theorem occupied_congr {a b : AddressGrid} (ha : (array a).Sound source)
    (hb : (array b).Sound source) (hproj : b.projection = a.projection) (haxes : b.axes = a.axes) :
    b.occupied = a.occupied := by
  have hfa : a.Filed source := ha.filed
  have hfb : b.Filed source := hb.filed
  have sub {a b : AddressGrid} (ha : (array a).Sound source) (hfa : a.Filed source)
      (hb : (array b).Sound source) (hfb : b.Filed source)
      (haddress : ∀ e, b.addressOf (b.projection.keyOf e) = a.addressOf (a.projection.keyOf e))
      {address : Nat} {h : Handle} (hh : b.holder? address = some h) :
      a.holder? address = some h := by
    have hm : h ∈ b.handles := AddressGrid.mem_handles_iff.2 ⟨_, hfb.holder?_eq_some_iff.1 hh⟩
    obtain ⟨e, he, _⟩ := hfb.exists_entry hm
    have hplace := ((hfb.holder?_iff he).1 hh).2
    rw [haddress] at hplace
    exact (hfa.holder?_iff he).2 ⟨(ha.complete h).2 (by simp [he]), hplace⟩
  have hkey (e : Entry) : b.addressOf (b.projection.keyOf e) = a.addressOf (a.projection.keyOf e) :=
    hproj ▸ AddressGrid.addressOf_of_axes haxes _
  refine OrderedTable.eq_of_find?_eq hfb.ascending hfa.ascending fun address => ?_
  refine Option.ext fun h => ⟨sub ha hfa hb hfb hkey, sub hb hfb ha hfa fun e => (hkey e).symm⟩

theorem hits_array_congr {a b : AddressGrid} (ha : (array a).Sound source)
    (hb : (array b).Sound source) (hblank : (array b).blank = (array a).blank) (probe : Entry) :
    (array b).hits source probe = (array a).hits source probe ∧ b.handles = a.handles := by
  have hfields : b.projection = a.projection ∧ b.axes = a.axes := by
    simpa [blank, AddressGrid.empty] using hblank
  obtain ⟨hproj, haxes⟩ := hfields
  have hoccupied := occupied_congr ha hb hproj haxes
  have hhandles : b.handles = a.handles := by rw [AddressGrid.handles, hoccupied]; rfl
  have hholder (address : Nat) : b.holder? address = a.holder? address := by
    rw [AddressGrid.holder?, hoccupied]
    rfl
  refine ⟨?_, hhandles⟩
  simp only [hits, hproj, hhandles, AddressGrid.addressOf_of_axes haxes, funext hholder]

/-- Heaps of one description that hold the handles of one source answer every peek alike, in
whatever order their handles came. -/
theorem get_heap_congr {a b : GroupHeaps} (ha : (heap a).Sound source) (hb : (heap b).Sound source)
    (hr : (heap a).Reads shape) (hblank : (heap b).blank = (heap a).blank)
    (hp : probe.Conforms shape) : (heap b).get source probe = (heap a).get source probe := by
  have hmem (h : Handle) : h ∈ b.handles ↔ h ∈ a.handles :=
    (hb.complete h).trans (ha.complete h).symm
  have hfields : b.projection = a.projection ∧ b.target = a.target ∧ b.order = a.order := by
    simpa [blank, GroupHeaps.empty] using hblank
  obtain ⟨hproj, htarget, horder⟩ := hfields
  have hitem (h : Handle) (e : Entry) : b.itemOf h e = a.itemOf h e := by
    rw [GroupHeaps.itemOf, GroupHeaps.targetOf, htarget]
    rfl
  have hfit : a.projection.Fits probe := hr.fits hp
  have hfit' : b.projection.Fits probe := by rwa [hproj]
  obtain ⟨x, hx, hbest⟩ := ha.filed.peek_spec hfit
  obtain ⟨y, hy, hother⟩ := hb.filed.peek_spec hfit'
  rw [get, get, hx, hy, Except.ok.injEq]
  simp only [hproj, horder, hitem, hmem] at hother
  cases x with
  | none =>
    cases y with
    | none => rfl
    | some y =>
      obtain ⟨hm, e, he, hsel, _⟩ := hother
      simp [hbest y hm e he] at hsel
  | some x =>
    obtain ⟨hm, e, he, hsel, hmin⟩ := hbest
    cases y with
    | none => simp [hother x hm e he] at hsel
    | some y =>
      obtain ⟨hm', e', he', hsel', hmin'⟩ := hother
      have heq : y = x := Item.handle_eq (hmin y hm' e' he' hsel') (hmin' x hm e he hsel)
      rw [heq]

end IndexedStore.Index
