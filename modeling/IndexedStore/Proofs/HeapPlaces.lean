import Mathlib.Data.List.Nodup
import Mathlib.Data.List.Perm.Basic
import IndexedStore.Proofs.Heaps
import IndexedStore.Proofs.Tables

/-!
# The places of heap items

A heap at work keeps its items, and its table changes in their handles only. Between two exchanges
the table is right for every position but the one of the moving item; where the item comes to rest,
its place is noted as well. So a push and a removal leave an array in heap order with a right table.
-/
namespace IndexedStore.Heap

variable {n : Nat} {order : Direction} {places : Places} {h : Handle}

def placeOf (h : Handle) (places : Places) : Option Nat :=
  OrderedTable.find? Handle.compare h places

def handles (items : Vector Item n) : List Handle := items.toList.map Item.handle

theorem mem_handles_iff {items : Vector Item n} :
    h ∈ handles items ↔ ∃ j : Fin n, (items.get j).handle = h := by
  simp only [handles, List.mem_map, Vector.mem_toList_iff, Vector.mem_iff_getElem]
  constructor
  · rintro ⟨item, ⟨i, hi, rfl⟩, rfl⟩
    exact ⟨⟨i, hi⟩, rfl⟩
  · rintro ⟨j, rfl⟩
    exact ⟨items.get j, ⟨j.val, j.isLt, rfl⟩, rfl⟩

theorem eq_of_handle_eq {items : Vector Item n} (hd : (handles items).Nodup) {j k : Fin n}
    (he : (items.get j).handle = (items.get k).handle) : j = k := by
  have hj : j.val < (handles items).length := by simp [handles]
  have hk : k.val < (handles items).length := by simp [handles]
  have heq : (handles items)[j.val] = (handles items)[k.val] := by
    simp only [handles, List.getElem_map]
    exact he
  exact Fin.ext (hd.getElem_inj_iff.1 heq)

theorem placeOf_put (ha : OrderedTable.Ascending Handle.compare places) (k : Handle) (i : Nat) :
    placeOf h (OrderedTable.put Handle.compare k i places) =
      if h = k then some i else placeOf h places := by
  rw [placeOf, OrderedTable.put, OrderedTable.find?_alter ha]
  simp only [Std.LawfulEqCmp.compare_eq_iff_eq]
  rfl

theorem placeOf_erase (ha : OrderedTable.Ascending Handle.compare places) (k : Handle) :
    placeOf h (OrderedTable.erase Handle.compare k places) =
      if h = k then none else placeOf h places := by
  rw [placeOf, OrderedTable.erase, OrderedTable.find?_alter ha]
  simp only [Std.LawfulEqCmp.compare_eq_iff_eq]
  rfl

/-- The second heap has the items of the first in some order, and its table differs in the places
of these items only. -/
structure Rearranges (a b : Heap n) : Prop where
  items : b.items.Perm a.items
  ascending : OrderedTable.Ascending Handle.compare b.places
  frame : ∀ h, h ∉ handles a.items → placeOf h b.places = placeOf h a.places

/-- The table of a heap has the place of every item but the one at a position. -/
def NotedBut (heap : Heap n) (i : Fin n) : Prop :=
  ∀ j ≠ i, placeOf (heap.items.get j).handle heap.places = some j.val

def Noted (heap : Heap n) : Prop :=
  ∀ j, placeOf (heap.items.get j).handle heap.places = some j.val

namespace Rearranges

variable {a b c : Heap n}

theorem handles_perm (h : Rearranges a b) : (handles b.items).Perm (handles a.items) :=
  h.items.toList.map Item.handle

theorem nodup (h : Rearranges a b) (hd : (handles a.items).Nodup) : (handles b.items).Nodup :=
  h.handles_perm.nodup_iff.2 hd

theorem trans (hab : Rearranges a b) (hbc : Rearranges b c) : Rearranges a c where
  items := hbc.items.trans hab.items
  ascending := hbc.ascending
  frame h hh := (hbc.frame h fun hm => hh (hab.handles_perm.mem_iff.1 hm)).trans (hab.frame h hh)

end Rearranges

variable {heap : Heap n} {i : Fin n}

theorem settle_rearranges (ha : OrderedTable.Ascending Handle.compare heap.places) (i : Fin n) :
    Rearranges heap (heap.settle i) where
  items := .rfl
  ascending := OrderedTable.ascending_alter ha
  frame h hh := by
    have hne : h ≠ (heap.items.get i).handle := fun he => hh (mem_handles_iff.2 ⟨i, he.symm⟩)
    exact (placeOf_put ha _ _).trans (if_neg hne)

theorem exchange_rearranges (ha : OrderedTable.Ascending Handle.compare heap.places)
    (i j : Fin n) : Rearranges heap (heap.exchange i j) := by
  have hswap : Rearranges heap ⟨heap.items.swap i j, heap.places⟩ :=
    ⟨Vector.swap_perm i.isLt j.isLt, ha, fun _ _ => rfl⟩
  exact hswap.trans (settle_rearranges hswap.ascending i)

theorem NotedBut.settle (hn : NotedBut heap i) (hd : (handles heap.items).Nodup)
    (ha : OrderedTable.Ascending Handle.compare heap.places) : Noted (heap.settle i) := by
  intro j
  refine (placeOf_put ha _ _).trans ?_
  by_cases hji : j = i
  · subst hji
    exact if_pos rfl
  · exact (if_neg fun he => hji (eq_of_handle_eq hd he)).trans (hn j hji)

/-- An exchange notes the item that gives way, and moves the other one. -/
theorem NotedBut.exchange (hn : NotedBut heap i) (hd : (handles heap.items).Nodup)
    (ha : OrderedTable.Ascending Handle.compare heap.places) (j : Fin n) :
    NotedBut (heap.exchange i j) j := by
  have hswap : Rearranges heap ⟨heap.items.swap i j, heap.places⟩ :=
    ⟨Vector.swap_perm i.isLt j.isLt, ha, fun _ _ => rfl⟩
  intro k hkj
  refine (placeOf_put ha _ _).trans ?_
  by_cases hki : k = i
  · subst hki
    exact if_pos rfl
  · refine (if_neg fun he => hki (eq_of_handle_eq (hswap.nodup hd) he)).trans ?_
    have hk : (heap.exchange i j).items.get k = heap.items.get k := swap_other hki hkj
    rw [hk]
    exact hn k hki

/-- An upward move keeps the items and brings the table up to date. -/
theorem siftUp_places (order : Direction) (heap : Heap n) (i : Fin n)
    (ha : OrderedTable.Ascending Handle.compare heap.places) :
    Rearranges heap (heap.siftUp order i).1 ∧ ((handles heap.items).Nodup → NotedBut heap i →
      Noted (heap.siftUp order i).1) := by
  induction heap, i using siftUp.induct order with
  | case1 heap i h ih =>
    have hstep := exchange_rearranges ha i (parent i)
    obtain ⟨hrest, hnoted⟩ := ih hstep.ascending
    rw [siftUp_rise h]
    exact ⟨hstep.trans hrest, fun hd hn => hnoted (hstep.nodup hd) (hn.exchange hd ha _)⟩
  | case2 heap i h =>
    rw [siftUp_rest h]
    exact ⟨settle_rearranges ha i, fun hd hn => hn.settle hd ha⟩

theorem siftDown_places (order : Direction) (heap : Heap n) (i : Fin n)
    (ha : OrderedTable.Ascending Handle.compare heap.places) :
    Rearranges heap (heap.siftDown order i) ∧ ((handles heap.items).Nodup → NotedBut heap i →
      Noted (heap.siftDown order i)) := by
  induction heap, i using siftDown.induct order with
  | case1 heap i h =>
    rw [siftDown_rest h]
    exact ⟨settle_rearranges ha i, fun hd hn => hn.settle hd ha⟩
  | case2 heap i h ih =>
    have hstep := exchange_rearranges ha i (heap.foremost order i)
    obtain ⟨hrest, hnoted⟩ := ih hstep.ascending
    rw [siftDown_sink h]
    exact ⟨hstep.trans hrest, fun hd hn => hnoted (hstep.nodup hd) (hn.exchange hd ha _)⟩

theorem restore_places (order : Direction) (heap : Heap n) (i : Fin n)
    (ha : OrderedTable.Ascending Handle.compare heap.places) :
    Rearranges heap (heap.restore order i) ∧ ((handles heap.items).Nodup → NotedBut heap i →
      Noted (heap.restore order i)) := by
  obtain ⟨hup, hnoted⟩ := siftUp_places order heap i ha
  rw [restore_eq]
  split
  · obtain ⟨hdown, hagain⟩ := siftDown_places order (heap.siftUp order i).1 i
      hup.ascending
    exact ⟨hup.trans hdown, fun hd hn => hagain (hup.nodup hd) fun j _ => hnoted hd hn j⟩
  · exact ⟨hup, hnoted⟩

/-! ## Arrays between two changes -/

def InOrder (order : Direction) (items : Array Item) : Prop :=
  ∀ j (hj : j < items.size), 0 < j → items[j].isBefore order items[(j - 1) / 2] = false

def Placed (items : Array Item) (places : Places) : Prop :=
  ∀ j (hj : j < items.size), placeOf items[j].handle places = some j

variable {items : Array Item} {item : Item}

theorem InOrder.root (ho : InOrder order items) (hpos : 0 < items.size) (hm : item ∈ items) :
    item.isBefore order items[0] = false := by
  obtain ⟨j, hj, rfl⟩ := Array.mem_iff_getElem.1 hm
  clear hm
  induction j using Nat.strongRecOn with
  | ind j ih =>
    rcases Nat.eq_zero_or_pos j with rfl | hjpos
    · exact Item.not_isBefore_self
    · exact Item.not_isBefore_trans (ho j hj hjpos) (ih _ (by omega) (by omega))

theorem inOrder_empty : InOrder order #[] := fun j hj => by simp at hj

/-- What a change of an array keeps, given the items it should keep, whatever the table says. -/
structure Keeps (order : Direction) (kept : List Item) (out : Array Item × Places) : Prop where
  items : out.1.toList.Perm kept
  inOrder : InOrder order out.1
  ascending : OrderedTable.Ascending Handle.compare out.2

theorem Rearranges.keeps {a b : Heap n} (h : Rearranges a b) (ho : Ordered order b.items) :
    Keeps order a.items.toList (b.items.toArray, b.places) where
  items := h.items.toList
  inOrder j hj hpos := ho ⟨j, by simpa using hj⟩ hpos
  ascending := h.ascending

/-- What a change of an array leaves behind, given the items it should keep. -/
structure Leaves (order : Direction) (kept : List Item) (places : Places)
    (out : Array Item × Places) : Prop where
  items : out.1.toList.Perm kept
  inOrder : InOrder order out.1
  ascending : OrderedTable.Ascending Handle.compare out.2
  frame : ∀ h, h ∉ kept.map Item.handle → placeOf h out.2 = placeOf h places
  placed : Placed out.1 out.2

theorem Rearranges.leaves {a b : Heap n} (h : Rearranges a b) (ho : Ordered order b.items)
    (hn : Noted b) : Leaves order a.items.toList a.places (b.items.toArray, b.places) :=
  { h.keeps ho with
    frame := h.frame
    placed := fun j hj => hn ⟨j, by simpa using hj⟩ }

theorem lt_size_push (items : Array Item) (item : Item) : items.size < (items.push item).size := by
  rw [Array.size_push]
  exact Nat.lt_succ_self _

theorem get_push (item : Item) {j : Fin (items.push item).size} (hj : j.val ≠ items.size) :
    ∃ hlt : j.val < items.size, (items.push item).toVector.get j = items[j.val] := by
  have hlt : j.val < items.size := by
    have hsize : j.val < items.size + 1 := by simpa using j.isLt
    omega
  exact ⟨hlt, Array.getElem_push_lt hlt⟩

theorem orderedBelow_push (ho : InOrder order items) :
    OrderedBelow order (items.push item).toVector ⟨items.size, lt_size_push items item⟩ := by
  have hchild {j : Fin (items.push item).size} (hpos : 0 < j.val)
      (hpj : parent j = ⟨items.size, lt_size_push items item⟩) : False := by
    have hsize : j.val < items.size + 1 := by simpa using j.isLt
    rw [Fin.ext_iff, parent_val] at hpj
    dsimp only at hpj
    omega
  refine ⟨⟨fun j hpos hj hpj => ?_, fun _ j hpos hpj => (hchild hpos hpj).elim⟩,
    fun j hpos hpj => (hchild hpos hpj).elim⟩
  obtain ⟨hlt, hget⟩ := get_push item (Fin.val_ne_of_ne hj)
  obtain ⟨_, hparent⟩ := get_push item (Fin.val_ne_of_ne hpj)
  rw [hget, hparent]
  exact ho j.val hlt hpos

theorem toList_toVector_push (items : Array Item) (item : Item) :
    (items.push item).toVector.toList = items.toList ++ [item] := by simp

theorem nodup_push (hd : (item.handle :: items.toList.map Item.handle).Nodup) :
    (handles (items.push item).toVector).Nodup := by
  rw [handles, toList_toVector_push, List.map_append]
  exact (List.perm_append_singleton _ _).nodup_iff.2 hd

theorem push_keeps (ho : InOrder order items)
    (ha : OrderedTable.Ascending Handle.compare places) (item : Item) :
    Keeps order (items.toList ++ [item]) (push order items places item) := by
  let heap : Heap (items.push item).size := ⟨(items.push item).toVector, places⟩
  let last : Fin (items.push item).size := ⟨items.size, lt_size_push items item⟩
  rw [← toList_toVector_push items item]
  exact (siftUp_places order heap last ha).1.keeps
    (siftUp_ordered heap last (orderedBelow_push ho))

theorem push_leaves (ho : InOrder order items)
    (ha : OrderedTable.Ascending Handle.compare places)
    (hd : (item.handle :: items.toList.map Item.handle).Nodup) (hp : Placed items places) :
    Leaves order (items.toList ++ [item]) places (push order items places item) := by
  let heap : Heap (items.push item).size := ⟨(items.push item).toVector, places⟩
  let last : Fin (items.push item).size := ⟨items.size, lt_size_push items item⟩
  have hn : NotedBut heap last := by
    intro j hj
    obtain ⟨hlt, hget⟩ := get_push item (Fin.val_ne_of_ne hj)
    rw [hget]
    exact hp j.val hlt
  obtain ⟨hmoved, hnoted⟩ := siftUp_places order heap last ha
  rw [← toList_toVector_push items item]
  exact hmoved.leaves (siftUp_ordered heap last (orderedBelow_push ho)) (hnoted (nodup_push hd) hn)

/-- An array whose last item stands in for the one at a position, and is left out at the end. -/
def standIn (items : Array Item) (last : Item) (i : Nat) : Array Item :=
  (items.setIfInBounds i last).pop

section StandIn

variable {last : Item} {i : Nat}

theorem size_standIn : (standIn items last i).size = items.size - 1 := by simp [standIn]

theorem getElem_standIn {j : Nat} (hj : j < (standIn items last i).size) (hlt : j < items.size)
    (hji : j ≠ i) : (standIn items last i)[j] = items[j] := by
  simp only [standIn, Array.getElem_pop]
  exact Array.getElem_setIfInBounds_ne _ hji.symm

theorem getElem_standIn_self (h : i < (standIn items last i).size) :
    (standIn items last i)[i] = last := by
  simp only [standIn, Array.getElem_pop]
  exact Array.getElem_setIfInBounds_self _

theorem standIn_perm (hlast : items.back? = some last) (hi : i < items.size) :
    (standIn items last i).toList.Perm (items.toList.eraseIdx i) := by
  have hl : items.toList[items.size - 1]? = some last := by
    rw [← hlast, Array.back?, Array.getElem?_toList]
  have hset : (items.toList.set i last).getLast? = some last := by
    rw [List.getLast?_eq_getElem?, List.length_set, Array.length_toList, List.getElem?_set]
    split
    · simp; omega
    · exact hl
  have hsplit : (standIn items last i).toList ++ [last] = items.toList.set i last := by
    rw [standIn, Array.toList_pop, Array.toList_setIfInBounds]
    exact List.dropLast_append_getLast? last hset
  have hperm := List.set_perm_cons_eraseIdx (l := items.toList) (n := i) (by simpa using hi) last
  rw [← hsplit] at hperm
  exact (List.perm_cons last).1 ((List.perm_append_singleton _ _).symm.trans hperm)

theorem exists_get_standIn {j : Fin (standIn items last i).size} (hj : j.val ≠ i) :
    ∃ hlt : j.val < items.size, (standIn items last i).toVector.get j = items[j.val] := by
  have hlt : j.val < items.size := Nat.lt_of_lt_of_le j.isLt (by rw [size_standIn]; omega)
  exact ⟨hlt, getElem_standIn j.isLt hlt hj⟩

theorem orderedBut_standIn (ho : InOrder order items) (hi : i < items.size)
    (h : i < (standIn items last i).size) :
    OrderedBut order (standIn items last i).toVector ⟨i, h⟩ := by
  refine ⟨fun j hpos hj hpj => ?_, fun hpos j hj hpj => ?_⟩
  · obtain ⟨hlt, hget⟩ := exists_get_standIn (Fin.val_ne_of_ne hj)
    obtain ⟨_, hparent⟩ := exists_get_standIn (Fin.val_ne_of_ne hpj)
    rw [hget, hparent]
    exact ho j.val hlt hpos
  · have hji : j ≠ ⟨i, h⟩ := fun he => parent_ne hj (hpj.trans he.symm)
    obtain ⟨hlt, hget⟩ := exists_get_standIn (Fin.val_ne_of_ne hji)
    obtain ⟨_, hparent⟩ := exists_get_standIn (Fin.val_ne_of_ne (parent_ne hpos))
    have hdown := ho j.val hlt hj
    have hval : (j.val - 1) / 2 = i := congrArg Fin.val hpj
    simp only [hval] at hdown
    rw [hget, hparent]
    exact Item.not_isBefore_trans hdown (ho i hi hpos)

end StandIn

theorem removeAt_eq {last : Item} (hlast : items.back? = some last) (i : Nat) :
    removeAt order items places i = if h : i < (standIn items last i).size then
        let heap := restore order ⟨(standIn items last i).toVector, places⟩ ⟨i, h⟩
        (heap.items.toArray, heap.places)
      else (standIn items last i, places) := by
  rw [removeAt, hlast]
  rfl

theorem exists_back? {i : Nat} (hi : i < items.size) : ∃ last, items.back? = some last := by
  rw [Array.back?]
  exact ⟨_, Array.getElem?_eq_getElem (by omega)⟩

/-- If nothing stands in for the item to remove, it is the last one itself. -/
theorem getElem_standIn_last {last : Item} {i j : Nat} (hi : i < items.size)
    (hlast : ¬ i < (standIn items last i).size) (hj : j < (standIn items last i).size) :
    j ≠ i ∧ ∃ hlt : j < items.size, (standIn items last i)[j] = items[j] := by
  have hlt : j ≠ i ∧ j < items.size := by
    rw [size_standIn] at hj hlast
    omega
  exact ⟨hlt.1, hlt.2, getElem_standIn hj hlt.2 hlt.1⟩

theorem removeAt_keeps (ho : InOrder order items)
    (ha : OrderedTable.Ascending Handle.compare places) {i : Nat} (hi : i < items.size) :
    Keeps order (items.toList.eraseIdx i) (removeAt order items places i) := by
  obtain ⟨last, hlast⟩ := exists_back? hi
  have hperm := standIn_perm hlast hi
  rw [removeAt_eq hlast]
  split
  next h =>
    let heap : Heap (standIn items last i).size := ⟨(standIn items last i).toVector, places⟩
    have hkeeps := (restore_places order heap ⟨i, h⟩ ha).1.keeps
      (restore_ordered heap ⟨i, h⟩ (orderedBut_standIn ho hi h))
    exact { hkeeps with items := hkeeps.items.trans hperm }
  next h =>
    refine ⟨hperm, fun j hj hpos => ?_, ha⟩
    have hparent : (j - 1) / 2 < (standIn items last i).size :=
      Nat.lt_of_le_of_lt (by omega) hj
    obtain ⟨_, hlt, hget⟩ := getElem_standIn_last hi h hj
    obtain ⟨_, _, hget'⟩ := getElem_standIn_last hi h hparent
    dsimp only
    rw [hget, hget']
    exact ho j hlt hpos

theorem removeAt_leaves (ho : InOrder order items)
    (ha : OrderedTable.Ascending Handle.compare places)
    (hd : (items.toList.map Item.handle).Nodup) {i : Nat} (hi : i < items.size)
    (hp : ∀ j (hj : j < items.size), j ≠ i → placeOf items[j].handle places = some j) :
    Leaves order (items.toList.eraseIdx i) places (removeAt order items places i) := by
  suffices hrest : (∀ h, h ∉ (items.toList.eraseIdx i).map Item.handle →
      placeOf h (removeAt order items places i).2 = placeOf h places) ∧
      Placed (removeAt order items places i).1 (removeAt order items places i).2 from
    { removeAt_keeps ho ha hi with
      frame := hrest.1
      placed := hrest.2 }
  obtain ⟨last, hlast⟩ := exists_back? hi
  have hperm := standIn_perm hlast hi
  rw [removeAt_eq hlast]
  split
  next h =>
    let heap : Heap (standIn items last i).size := ⟨(standIn items last i).toVector, places⟩
    have hn : NotedBut heap ⟨i, h⟩ := by
      intro j hj
      obtain ⟨hlt, hget⟩ := exists_get_standIn (Fin.val_ne_of_ne hj)
      rw [hget]
      exact hp j.val hlt (Fin.val_ne_of_ne hj)
    have hitems : heap.items.toList = (standIn items last i).toList := rfl
    have hnodup : (handles heap.items).Nodup := by
      rw [handles, hitems]
      refine ((hperm.map Item.handle).nodup_iff).2 ?_
      exact hd.sublist ((List.eraseIdx_sublist _ _).map _)
    obtain ⟨hmoved, hnoted⟩ := restore_places order heap ⟨i, h⟩ ha
    exact ⟨fun h hh => hmoved.frame h fun hm => hh ((hperm.map Item.handle).mem_iff.1 hm),
      fun j hj => hnoted hnodup hn ⟨j, by simpa using hj⟩⟩
  next h =>
    refine ⟨fun _ _ => rfl, fun j hj => ?_⟩
    obtain ⟨hji, hlt, hget⟩ := getElem_standIn_last hi h hj
    dsimp only
    rw [hget]
    exact hp j hlt hji

/-- A removal with a table that forgot the handle to remove. -/
theorem removeAt_leaves_erase (ho : InOrder order items)
    (ha : OrderedTable.Ascending Handle.compare places)
    (hd : (items.toList.map Item.handle).Nodup) (hp : Placed items places) {i : Nat}
    (hi : i < items.size) (hh : items[i].handle = h) :
    (h :: (items.toList.eraseIdx i).map Item.handle).Perm (items.toList.map Item.handle) ∧
    Leaves order (items.toList.eraseIdx i) (OrderedTable.erase Handle.compare h places)
      (removeAt order items (OrderedTable.erase Handle.compare h places) i) := by
  constructor
  · have hlt : i < items.toList.length := by simpa using hi
    have hone := (List.getElem_cons_eraseIdx_perm hlt).map Item.handle
    rwa [List.map_cons, Array.getElem_toList hi, hh] at hone
  · refine removeAt_leaves ho (OrderedTable.ascending_alter ha) hd hi fun j hj hji => ?_
    have hne : items[j].handle ≠ h := by
      intro he
      have hsame := hp j hj
      rw [he, ← hh, hp i hi] at hsame
      exact hji (Option.some.inj hsame).symm
    exact ((placeOf_erase ha h).trans (if_neg hne)).trans (hp j hj)

end IndexedStore.Heap
