import IndexedStore.Proofs.HeapRetractions
import IndexedStore.Proofs.Rollbacks

/-!
# Additions taken back

A handle that is new to an index comes last wherever handles stand in order of arrival. If it is
removed right after its addition, a chain or row is the one from before, one that was made for it is
gone again, and a heap is as it was. Only the peak counts the addition.
-/
namespace IndexedStore

/-- A tally but for its peak. -/
def Tally.unpeaked (t : Tally) : Tally := { t with peak := 0 }

theorem Tally.counted_back (t : Tally) (isNew : Bool) :
    (if isNew then (if isNew then t.addKey else t).addEntry.removeKey
      else (if isNew then t.addKey else t).addEntry).removeEntry.unpeaked = t.unpeaked := by
  cases isNew <;> rfl

/-! ## One index -/

def ScanList.unpeaked (l : ScanList) : ScanList := { l with tally := l.tally.unpeaked }

theorem ScanList.pull_add {l : ScanList} {h : Handle} (hh : h ∉ l.handles) :
    ((l.add h).pull h).unpeaked = l.unpeaked := by
  simp only [pull, add, erase_append_new hh]
  rfl

namespace HashChains

variable {c : HashChains} {source : Source} {h : Handle} {hash : UInt32}

def unpeaked (c : HashChains) : HashChains := { c with tally := c.tally.unpeaked }

theorem Filed.pull_push (hf : c.Filed source) (hh : h ∉ c.chain hash) :
    ((c.push hash h).pull hash h).unpeaked = c.unpeaked := by
  have hback : ((c.push hash h).chain hash).erase h = c.chain hash := by
    rw [hf.chain_push, if_pos rfl, erase_append_new hh]
  have hchains : OrderedTable.putList Ord.compare hash (c.chain hash) (c.push hash h).chains =
      c.chains := by
    rw [push_chains]
    exact OrderedTable.putList_undone hf.ascending hf.occupied (by simp)
  rw [HashChains.pull, hback, hchains]
  exact congrArg (fun tally => { c with tally }) (c.tally.counted_back _)

end HashChains

namespace KeyRows

variable {r : KeyRows} {source : Source} {h : Handle} {key : Key}

def unpeaked (r : KeyRows) : KeyRows := { r with tally := r.tally.unpeaked }

theorem Filed.pull_push (hf : r.Filed source) (hh : h ∉ r.row key) :
    ((r.push key h).pull key h).unpeaked = r.unpeaked := by
  have hback : ((r.push key h).row key).erase h = r.row key := by
    rw [hf.row_push, if_pos Std.ReflCmp.compare_self, erase_append_new hh]
  have hrows : OrderedTable.putList Key.compare key (r.row key) (r.push key h).rows = r.rows := by
    rw [push_rows]
    exact OrderedTable.putList_undone hf.ascending hf.occupied (by simp)
  have hpartial : (if (r.row key).isEmpty && key.isPartial then (r.push key h).partialRows - 1
      else (r.push key h).partialRows) = r.partialRows := by
    simp only [KeyRows.push]
    split <;> rfl
  simp only [KeyRows.pull, hback, hrows, hpartial]
  exact congrArg (fun tally => { r with tally }) (r.tally.counted_back _)

end KeyRows

namespace AddressGrid

variable {g : AddressGrid} {source : Source} {h : Handle} {address : Nat}

def unpeaked (g : AddressGrid) : AddressGrid := { g with tally := g.tally.unpeaked }

theorem Filed.vacate_occupy (hf : g.Filed source) (hfree : g.holder? address = none) :
    ((g.occupy address h).vacate address).unpeaked = g.unpeaked := by
  have hslots : OrderedTable.erase Ord.compare address
      (OrderedTable.put Ord.compare address h g.occupied) = g.occupied :=
    OrderedTable.alter_undone hf.ascending (fun _ => rfl) hfree.symm
  simp only [AddressGrid.vacate, AddressGrid.occupy, hslots]
  rfl

end AddressGrid

namespace GroupHeaps

variable {g : GroupHeaps} {source : Source} {h : Handle} {key : Key} {item : Item}

def unpeaked (g : GroupHeaps) : GroupHeaps := { g with tally := g.tally.unpeaked }

def itemsIn (key : Key) (bucket : List Group) : Array Item :=
  (bucket.find? fun group => Key.same key group.key).elim #[] Group.items

theorem itemsIn_cons_of_not_same {group : Group} {bucket : List Group}
    (hk : ¬ Key.same key group.key = true) :
    itemsIn key (group :: bucket) = itemsIn key bucket := by
  simp [itemsIn, hk]

theorem itemsAt_eq_itemsIn : g.itemsAt key = itemsIn key (g.bucket key.hash) := by
  rw [itemsAt, group?, itemsIn]
  cases (g.bucket key.hash).find? fun group => Key.same key group.key <;> rfl

section Buckets

variable {bucket : List Group} {items : Array Item} (hi : items.isEmpty = false)
include hi

theorem putGroup_ne_nil : putGroup key items bucket ≠ [] := by
  cases bucket with
  | nil => simp [putGroup, hi]
  | cons group bucket =>
    rw [putGroup]
    split <;> simp [hi]

theorem itemsIn_putGroup : itemsIn key (putGroup key items bucket) = items := by
  have hself : Key.same key key = true := Key.same_of_compare Std.ReflCmp.compare_self
  induction bucket with
  | nil => simp [putGroup, itemsIn, hi, hself]
  | cons group bucket ih =>
    by_cases hk : Key.same key group.key = true
    · simp [putGroup, itemsIn, hi, hk]
    · rw [putGroup, if_neg hk, itemsIn_cons_of_not_same hk, ih]

theorem putGroup_undone (ho : ∀ group ∈ bucket, 0 < group.items.size) :
    putGroup key (itemsIn key bucket) (putGroup key items bucket) = bucket := by
  have hself : Key.same key key = true := Key.same_of_compare Std.ReflCmp.compare_self
  induction bucket with
  | nil => simp [putGroup, itemsIn, hi, hself]
  | cons group bucket ih =>
    by_cases hk : Key.same key group.key = true
    · have hne : group.items ≠ #[] := Array.size_pos_iff.1 (ho group List.mem_cons_self)
      simp [putGroup, itemsIn, hi, hk, hne]
    · have hrest := ih fun x hx => ho x (List.mem_cons_of_mem _ hx)
      rw [itemsIn_cons_of_not_same hk, putGroup, if_neg hk, putGroup, if_neg hk, hrest]

end Buckets

namespace Filed

variable (hf : g.Filed source) (hk : key.length = g.projection.width)
include hf hk

theorem isEmpty_itemsAt : (g.itemsAt key).isEmpty = (g.group? key).isNone := by
  rw [itemsAt]
  cases hg : g.group? key with
  | none => rfl
  | some group =>
    have hpos := (hf.kept group ((hf.keyed.group?_eq_some_iff hk).1 hg).1).occupied
    simpa using Array.size_pos_iff.1 hpos

omit hk in
theorem bucket_withGroup (key : Key) (items : Array Item) :
    (g.withGroup key items).bucket key.hash = putGroup key items (g.bucket key.hash) := by
  have hat : OrderedTable.listAt Ord.compare key.hash (OrderedTable.putList Ord.compare key.hash
      (putGroup key items (g.bucket key.hash)) g.buckets) = _ :=
    OrderedTable.listAt_putList hf.ascending _ _
  rw [if_pos Std.ReflCmp.compare_self, ← withGroup_buckets hf.ascending] at hat
  exact hat

omit hk in
theorem buckets_undone {items : Array Item} (hi : items.isEmpty = false) :
    ((g.withGroup key items).withGroup key (g.itemsAt key)).buckets = g.buckets := by
  have hocc : ∀ group ∈ g.bucket key.hash, 0 < group.items.size := by
    intro group hg
    obtain ⟨row, hr, _, hm⟩ := OrderedTable.exists_of_mem_listAt hf.ascending hg
    exact (hf.kept group (List.mem_flatMap.2 ⟨row, hr, hm⟩)).occupied
  rw [withGroup_buckets (OrderedTable.ascending_alter hf.ascending), hf.bucket_withGroup,
    itemsAt_eq_itemsIn, putGroup_undone hi hocc, withGroup_buckets hf.ascending]
  exact OrderedTable.putList_undone hf.ascending hf.occupied (putGroup_ne_nil hi)

theorem pull_push (hh : item.handle ∉ g.handles) {i : Nat}
    (hi : Heap.placeOf item.handle (g.push key item).places = some i) :
    ((g.push key item).pull key item.handle i).unpeaked = g.unpeaked := by
  obtain ⟨horder, hplaced⟩ := hf.inOrder_itemsAt hk
  have hfresh : Heap.placeOf item.handle g.places = none :=
    Option.not_isSome_iff_eq_none.1 fun hsome => hh (hf.known _ hsome)
  rw [push_eq_replace] at hi ⊢
  have hout := Heap.removeAt_push horder (hf.nodup_cons_itemsAt hk hh) hf.table hplaced hfresh hi
  have hne : (Heap.push g.order (g.itemsAt key) g.places item).1.isEmpty = false := by
    simp [Heap.push]
  generalize Heap.push g.order (g.itemsAt key) g.places item = out at hout hne
  have hitems (tally : Tally) : (g.replace key out tally).itemsAt key = out.1 := by
    have hbucket : (g.replace key out tally).bucket key.hash = _ := hf.bucket_withGroup key out.1
    rw [itemsAt_eq_itemsIn, hbucket, itemsIn_putGroup hne]
  have hbuckets : ((g.withGroup key out.1).withGroup key (g.itemsAt key)).buckets = g.buckets :=
    hf.buckets_undone hne
  have htally := g.tally.counted_back (g.group? key).isNone
  have hremove (tally : Tally) : Heap.removeAt (g.replace key out tally).order out.1
      (OrderedTable.erase Handle.compare item.handle (g.replace key out tally).places) i =
        (g.itemsAt key, g.places) := hout
  simp only [GroupHeaps.pull, hitems, hremove, hf.isEmpty_itemsAt hk]
  exact congrArg₂ (fun buckets tally => { g with buckets, tally }) hbuckets htally

end Filed

end GroupHeaps

/-! ## Any index -/

namespace Index

variable {i j k : Index} {source after : Source} {shape : Shape} {h : Handle} {e : Entry}

/-- An index but for the peak of its tally. -/
def unpeaked : Index → Index
  | .list l => .list l.unpeaked
  | .hash c => .hash c.unpeaked
  | .tree r => .tree r.unpeaked
  | .array g => .array g.unpeaked
  | .heap g => .heap g.unpeaked

theorem remove_eq (hj : i.remove? h e = .ok (some j)) : i.remove h e = .ok j := by
  rw [remove, hj]
  rfl

section Additions

variable (hh : source h = none) (he : e.Conforms shape)
include hh he

theorem hash_undone {c : HashChains} (hi : (hash c).Sound source) (hr : (hash c).Reads shape) :
    ∃ d, (c.push (c.projection.keyOf e).hash h).remove? h e = .ok (some d) ∧
      d.unpeaked = c.unpeaked := by
  have hf : c.Filed source := hi.filed
  have hfit : c.projection.Fits e := hr.fits he
  have hnew : h ∉ c.chain (c.projection.keyOf e).hash := fun hm =>
    hi.not_mem_handles hh (hf.mem_handles_iff.2 ⟨_, hm⟩)
  refine ⟨_, ?_, hf.pull_push hnew⟩
  have hremove := HashChains.remove?_eq (c := c.push (c.projection.keyOf e).hash h) (h := h) hfit
  rw [hremove]
  refine congrArg _ (if_pos ?_)
  change h ∈ (c.push _ h).chain (c.projection.keyOf e).hash
  rw [hf.chain_push, if_pos rfl]
  simp

theorem tree_undone {r : KeyRows} (hi : (tree r).Sound source) (hr : (tree r).Reads shape) :
    ∃ d, (r.push (r.projection.keyOf e) h).remove? h e = .ok (some d) ∧
      d.unpeaked = r.unpeaked := by
  have hf : r.Filed source := hi.filed
  have hfit : r.projection.Fits e := hr.fits he
  have hnew : h ∉ r.row (r.projection.keyOf e) := fun hm =>
    hi.not_mem_handles hh (hf.mem_handles_iff.2 ⟨_, hm⟩)
  have hf' : r.Filed (Function.update source h (some e)) := hi.filed_update hh e
  refine ⟨_, ?_, hf.pull_push hnew⟩
  rw [(hf'.push (Function.update_self _ _ _) hfit).remove?_eq hfit]
  refine congrArg _ (if_pos ?_)
  change h ∈ (r.push _ h).row (r.projection.keyOf e)
  rw [hf.row_push, if_pos Std.ReflCmp.compare_self]
  simp

omit hh in
theorem array_undone {g : AddressGrid} {address : Nat} (hi : (array g).Sound source)
    (hr : (array g).Reads shape) (haddress : g.addressOf (g.projection.keyOf e) = some address)
    (hfree : g.holder? address = none) :
    ∃ d, (g.occupy address h).remove? h e = .ok (some d) ∧ d.unpeaked = g.unpeaked := by
  have hf : g.Filed source := hi.filed
  have hfit : g.projection.Fits e := hr.fits he
  have hslot : (g.occupy address h).holder? address = some h := by
    refine (OrderedTable.find?_alter hf.ascending).trans ?_
    rw [if_pos Std.ReflCmp.compare_self]
  have haddress' : (g.occupy address h).addressOf (g.projection.keyOf e) = some address :=
    haddress
  refine ⟨(g.occupy address h).vacate address, ?_, hf.vacate_occupy hfree⟩
  have hremove := AddressGrid.remove?_eq (g := g.occupy address h) (h := h) hfit
  rw [hremove]
  change Except.ok (((g.occupy address h).addressOf (g.projection.keyOf e)).bind _) = _
  rw [haddress', Option.bind_some, if_pos hslot]

theorem heap_undone {g : GroupHeaps} (hi : (heap g).Sound source) (hr : (heap g).Reads shape) :
    ∃ d, (g.push (g.projection.keyOf e) ⟨g.targetOf e, h⟩).remove? h e = .ok (some d) ∧
      d.unpeaked = g.unpeaked := by
  have hf : g.Filed source := hi.filed
  have hf' : g.Filed (Function.update source h (some e)) := hi.filed_update hh e
  have hself : Function.update source h (some e) h = some e := Function.update_self _ _ _
  have hnew : h ∉ g.handles := hi.not_mem_handles hh
  obtain ⟨hfiled, hperm⟩ := hf'.push hself (hr.heap he) hnew
  obtain ⟨p, hplace, -, hremove⟩ := hfiled.exists_pull hself (hperm.mem_iff.2 List.mem_cons_self)
  exact ⟨_, hremove, hf.pull_push Projection.length_keyOf hnew hplace⟩

end Additions

/-- An index that lets go of a handle right after it took it is as before, but for its peak. -/
theorem unpeaked_undone (hi : i.Sound source) (hr : i.Reads shape) (hh : source h = none)
    (he : e.Conforms shape) (hadd : i.add after h e = .ok (.ok j)) (hremove : j.remove h e = .ok k) :
    k.unpeaked = i.unpeaked := by
  suffices hback : ∃ d, j.remove? h e = .ok (some d) ∧ d.unpeaked = i.unpeaked by
    obtain ⟨d, hd, hsame⟩ := hback
    obtain rfl := Except.ok.inj (hremove.symm.trans (remove_eq hd))
    exact hsame
  cases hi.added hr hh he hadd with
  | @list l =>
    have hmem : h ∈ (l.add h).handles := by simp [ScanList.add]
    refine ⟨list ((l.add h).pull h), ?_, congrArg list (ScanList.pull_add (hi.not_mem_handles hh))⟩
    rw [Index.remove?, ScanList.remove?_eq, if_pos hmem]
    rfl
  | hash =>
    obtain ⟨d, hd, hsame⟩ := hash_undone hh he hi hr
    exact ⟨hash d, by rw [Index.remove?, hd]; rfl, congrArg hash hsame⟩
  | tree =>
    obtain ⟨d, hd, hsame⟩ := tree_undone hh he hi hr
    exact ⟨tree d, by rw [Index.remove?, hd]; rfl, congrArg tree hsame⟩
  | array haddress hfree =>
    obtain ⟨d, hd, hsame⟩ := array_undone he hi hr haddress hfree
    exact ⟨array d, by rw [Index.remove?, hd]; rfl, congrArg array hsame⟩
  | heap =>
    obtain ⟨d, hd, hsame⟩ := heap_undone hh he hi hr
    exact ⟨heap d, by rw [Index.remove?, hd]; rfl, congrArg heap hsame⟩

end Index

end IndexedStore
