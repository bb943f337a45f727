import IndexedStore.Proofs.HeapPlaces

/-!
# Pushes taken back

A pushed item rises along one path, and the items it passes come down one level each. If it is then
removed, the last item stands in for it and sinks along the same path, for no child beside the path
is before the one on it. So every item comes back to its old position, and its place with it.
-/
namespace IndexedStore.Heap

variable {n m : Nat} {order : Direction} {base : Array Item} {items : Vector Item n}
  {i last : Fin n} {short : Vector Item m}

section Foremost

variable {heap : Heap n}

theorem better_eq_self {best : Fin n} {j : Nat}
    (hj : ∀ h : j < n, (heap.items.get ⟨j, h⟩).isBefore order (heap.items.get best) = false) :
    heap.better order best j = best := by
  rw [better]
  split
  next h => exact if_neg fun hb => Bool.false_ne_true ((hj h).symm.trans hb)
  next => rfl

theorem foremost_eq_self (hc : ∀ k : Fin n, 0 < k.val → parent k = i →
    (heap.items.get k).isBefore order (heap.items.get i) = false) : heap.foremost order i = i := by
  have hchild {j : Nat} (hpos : 0 < j) (hpj : (j - 1) / 2 = i.val) :
      heap.better order i j = i :=
    better_eq_self fun h => hc ⟨j, h⟩ hpos (Fin.ext hpj)
  rw [foremost, hchild (j := 2 * i.val + 1) (by omega) (by omega),
    hchild (j := 2 * i.val + 2) (by omega) (by omega)]

theorem foremost_eq_child {c : Fin n} (hpos : 0 < c.val) (hpc : parent c = i)
    (hb : (heap.items.get c).isBefore order (heap.items.get i) = true)
    (hs : ∀ k ≠ c, 0 < k.val → parent k = i →
      (heap.items.get c).isBefore order (heap.items.get k) = true) :
    heap.foremost order i = c := by
  have hmin := not_isBefore_foremost order heap i (.inr ⟨hpos, hpc⟩)
  rcases foremost_eq_or_child order heap i with hself | ⟨hfpos, hpf⟩
  · rw [hself, hb] at hmin
    cases hmin
  · by_contra hne
    rw [hs _ hne hfpos hpf] at hmin
    cases hmin

end Foremost

/-- One array is another without its last item, which stands in for the item at a position. -/
structure Shortens (short : Vector Item m) (items : Vector Item n) (last i : Fin n) : Prop where
  size : m = last.val
  get : ∀ (k : Fin n) (hk : k.val < m),
    short.get ⟨k.val, hk⟩ = if k = i then items.get last else items.get k

/-- A position of a rising item from which a removal leads back to the items before the push. -/
structure Retractable (order : Direction) (base : Array Item) (items : Vector Item n)
    (last i : Fin n) : Prop extends OrderedBelow order items i where
  nodup : (handles items).Nodup
  /-- The last item, standing in at the position, does not rise from there. -/
  low : i ≠ last → 0 < i.val → (items.get last).isBefore order (items.get (parent i)) = false
  /-- From the last position a removal has nothing to move. -/
  full : i = last → ∀ {m : Nat} {short : Vector Item m}, Shortens short items last i →
    short.toArray = base
  /-- From any other one the stand-in sinks, and every item is back where it was. -/
  back : ∀ {m : Nat} {short : Vector Item m}, Shortens short items last i →
    ∀ (hi : i.val < m) (places : Places),
      (siftDown order ⟨short, places⟩ ⟨i.val, hi⟩).items.toArray = base

section Rise

variable (hlast : last.val + 1 = n) (hi : 0 < i.val)
include hlast hi

theorem parent_lt_last : (parent i).val < last.val := by
  have := i.isLt
  rw [parent_val]
  omega

theorem parent_ne_last : parent i ≠ last :=
  Fin.ne_of_val_ne (Nat.ne_of_lt (parent_lt_last hlast hi))

section Stand

variable (hs : Shortens short (items.swap i (parent i) i.isLt (parent i).isLt) last (parent i))
include hs

omit hlast in
/-- If an item rose from the last position, the removal leaves its old parent where it stood. -/
theorem Shortens.of_rise (hil : i = last) : Shortens short items last i where
  size := hs.size
  get k hk := by
    have hki : k ≠ i := by
      rintro rfl
      exact absurd hk (by rw [hs.size, hil]; exact Nat.lt_irrefl _)
    rw [hs.get k hk, if_neg hki, ← hil, swap_left]
    split
    next hkp => rw [hkp]
    next hkp => exact swap_other hki hkp

/-- Otherwise the stand-in comes to where the item rose from after one exchange. -/
theorem Shortens.exchange (hil : i ≠ last) (him : i.val < m) (hpm : (parent i).val < m) :
    Shortens (short.swap (parent i).val i.val hpm him) items last i where
  size := hs.size
  get k hk := by
    have hp := hs.get (parent i) hpm
    have hi' := hs.get i him
    rw [if_pos rfl, swap_other (Ne.symm hil) (parent_ne_last hlast hi).symm] at hp
    rw [if_neg (parent_ne hi).symm, swap_left] at hi'
    by_cases hki : k = i
    · subst hki
      rw [if_pos rfl, ← hp]
      exact Vector.getElem_swap_right ..
    · rw [if_neg hki]
      by_cases hkp : k = parent i
      · subst hkp
        exact (Vector.getElem_swap_left ..).trans hi'
      · have hk' := hs.get k hk
        rw [if_neg hkp, swap_other hki hkp] at hk'
        refine (Vector.getElem_swap_of_ne ?_ ?_).trans hk'
        · exact Fin.val_ne_of_ne hkp
        · exact Fin.val_ne_of_ne hki

end Stand

variable (hr : Retractable order base items last i)
include hr

omit hlast in
theorem Retractable.sibling {k : Fin n} (hk : 0 < k.val) (hki : k ≠ i)
    (hpk : parent k = parent i) :
    (items.get k).isBefore order (items.get (parent i)) = false := by
  have happart := hr.apart k hk hki fun hpi => parent_ne hi (hpk.symm.trans hpi)
  rwa [hpk] at happart

theorem Retractable.low_rise (hpos : 0 < (parent i).val) :
    ((items.swap i (parent i) i.isLt (parent i).isLt).get last).isBefore order
      ((items.swap i (parent i) i.isLt (parent i).isLt).get (parent (parent i))) = false := by
  have hup : (items.get (parent i)).isBefore order (items.get (parent (parent i))) = false :=
    hr.apart (parent i) hpos (parent_ne hi) (parent_parent_ne hi)
  rw [swap_other (parent_parent_ne hi) (parent_ne hpos)]
  by_cases hil : i = last
  · rw [← hil, swap_left]
    exact hup
  · rw [swap_other (Ne.symm hil) (parent_ne_last hlast hi).symm]
    exact Item.not_isBefore_trans (hr.low hil hi) hup

omit hlast hi in
theorem Retractable.before {j k : Fin n} (hjk : j ≠ k)
    (hb : (items.get j).isBefore order (items.get k) = false) :
    (items.get k).isBefore order (items.get j) = true := by
  by_contra hnot
  exact hjk (eq_of_handle_eq hr.nodup (Item.handle_eq hb (eq_false_of_ne_true hnot)))

section Stand

variable (hs : Shortens short (items.swap i (parent i) i.isLt (parent i).isLt) last (parent i))
  (hpm : (parent i).val < m)
include hs

omit hlast in
theorem Retractable.beside {k : Fin m} (hk : 0 < k.val) (hpk : (parent k).val = (parent i).val)
    (hki : k.val ≠ i.val) : ∃ l : Fin n, l ≠ parent i ∧ short.get k = items.get l ∧
      (items.get l).isBefore order (items.get (parent i)) = false := by
  have hkn : k.val < n := Nat.lt_trans k.isLt (hs.size ▸ last.isLt)
  have hpl : parent (⟨k.val, hkn⟩ : Fin n) = parent i := Fin.ext hpk
  have hli : (⟨k.val, hkn⟩ : Fin n) ≠ i := Fin.ne_of_val_ne hki
  have hlp : (⟨k.val, hkn⟩ : Fin n) ≠ parent i := fun he =>
    parent_ne (i := ⟨k.val, hkn⟩) hk (hpl.trans he.symm)
  refine ⟨⟨k.val, hkn⟩, hlp, ?_, hr.sibling hi hk hli hpl⟩
  have hget := hs.get ⟨k.val, hkn⟩ k.isLt
  rwa [if_neg hlp, swap_other hli hlp] at hget

omit hlast in
/-- If an item rose from the last position, the stand-in for it rests at once. -/
theorem Retractable.stands (hil : i = last) (places : Places) :
    foremost order ⟨short, places⟩ ⟨(parent i).val, hpm⟩ = ⟨(parent i).val, hpm⟩ := by
  refine foremost_eq_self fun k hk hpk => ?_
  have hki : k.val ≠ i.val := by
    have := k.isLt
    rw [hil, ← hs.size]
    omega
  obtain ⟨l, _, hget, hbefore⟩ := hr.beside hi hs hk (congrArg Fin.val hpk) hki
  have hp := (hs.of_rise hi hil).get (parent i) hpm
  rw [if_neg (parent_ne hi)] at hp
  dsimp only
  rwa [hget, hp]

/-- Otherwise the old parent of the item, now its child, comes up in its place. -/
theorem Retractable.sinks (hil : i ≠ last) (him : i.val < m) (places : Places) :
    foremost order ⟨short, places⟩ ⟨(parent i).val, hpm⟩ = ⟨i.val, him⟩ := by
  have hp := hs.get (parent i) hpm
  rw [if_pos rfl, swap_other (Ne.symm hil) (parent_ne_last hlast hi).symm] at hp
  have hchild := hs.get i him
  rw [if_neg (parent_ne hi).symm, swap_left] at hchild
  refine foremost_eq_child hi rfl ?_ fun k hki hk hpk => ?_
  · dsimp only
    rw [hchild, hp]
    exact hr.before (parent_ne_last hlast hi).symm (hr.low hil hi)
  · obtain ⟨l, hlp, hget, hbefore⟩ :=
      hr.beside hi hs hk (congrArg Fin.val hpk) (Fin.val_ne_of_ne hki)
    dsimp only
    rw [hchild, hget]
    exact hr.before hlp hbefore

/-- The stand-in for a risen item rests at once or sinks to where the item rose from. -/
theorem Retractable.back_rise (places : Places) :
    (siftDown order ⟨short, places⟩ ⟨(parent i).val, hpm⟩).items.toArray = base := by
  by_cases hil : i = last
  · rw [siftDown_rest (hr.stands hi hs hpm hil places)]
    exact hr.full hil (hs.of_rise hi hil)
  · have him : i.val < m := by
      have := i.isLt
      have := Fin.val_ne_of_ne hil
      rw [hs.size]
      omega
    have hsinks := hr.sinks hlast hi hs hpm hil him places
    have hne : foremost order ⟨short, places⟩ ⟨(parent i).val, hpm⟩ ≠ ⟨(parent i).val, hpm⟩ := by
      rw [hsinks]
      exact fun he => parent_ne hi (Fin.ext (Fin.mk.inj he).symm)
    rw [siftDown_sink hne, hsinks]
    exact hr.back (hs.exchange hlast hi hil him hpm) him _

end Stand

theorem Retractable.rise (hb : (items.get i).isBefore order (items.get (parent i)) = true) :
    Retractable order base (items.swap i (parent i) i.isLt (parent i).isLt) last (parent i) where
  toOrderedBelow := hr.toOrderedBelow.rise hi hb
  nodup := by
    have hperm : (items.swap i (parent i) i.isLt (parent i).isLt).Perm items :=
      Vector.swap_perm i.isLt (parent i).isLt
    exact (hperm.toList.map Item.handle).nodup_iff.2 hr.nodup
  low _ := hr.low_rise hlast hi
  full hp := absurd hp (parent_ne_last hlast hi)
  back hs hpm := hr.back_rise hlast hi hs hpm

end Rise

theorem siftUp_retractable (hlast : last.val + 1 = n) (heap : Heap n) (i : Fin n)
    (hr : Retractable order base heap.items last i) :
    Retractable order base (heap.siftUp order i).1.items last (heap.siftUp order i).2 ∧
      (heap.siftUp order i).1.items.get (heap.siftUp order i).2 = heap.items.get i := by
  induction heap, i using siftUp.induct order with
  | case1 heap i h ih =>
    obtain ⟨hrisen, hget⟩ := ih (hr.rise hlast h.1 h.2)
    rw [siftUp_rise h]
    exact ⟨hrisen, hget.trans swap_right⟩
  | case2 heap i h =>
    rw [siftUp_rest h]
    exact ⟨hr, rfl⟩

/-! ## Arrays -/

variable {places : Places} {item : Item} {items : Array Item}

theorem push_retractable (ho : InOrder order items)
    (hd : (item.handle :: items.toList.map Item.handle).Nodup) :
    Retractable order items (items.push item).toVector ⟨items.size, lt_size_push items item⟩
      ⟨items.size, lt_size_push items item⟩ where
  toOrderedBelow := orderedBelow_push ho
  nodup := nodup_push hd
  low hne := absurd rfl hne
  full := by
    intro _ m short hs
    have hm : m = items.size := hs.size
    refine Array.ext (by simp [hm]) fun k hk hlt => ?_
    have hk : k < m := by simpa using hk
    have hkn : k < (items.push item).size := by rw [Array.size_push]; omega
    have hget := hs.get ⟨k, hkn⟩ hk
    have hne : (⟨k, hkn⟩ : Fin (items.push item).size) ≠ ⟨items.size, lt_size_push items item⟩ :=
      Fin.ne_of_val_ne (Nat.ne_of_lt hlt)
    obtain ⟨_, hold⟩ := get_push item (Fin.val_ne_of_ne hne)
    rw [if_neg hne, hold] at hget
    exact hget
  back hs hi := absurd hi (by rw [hs.size]; exact Nat.lt_irrefl _)

section Removal

variable {n : Nat} {risen : Vector Item n} {last j : Fin n} (hlast : last.val + 1 = n)
include hlast

theorem standIn_shortens :
    Shortens (standIn risen.toArray (risen.get last) j.val).toVector risen last j where
  size := by
    rw [size_standIn, Vector.size_toArray]
    omega
  get k hk := by
    split
    next hkj =>
      subst hkj
      exact getElem_standIn_self hk
    next hkj => exact getElem_standIn hk (by simp) (Fin.val_ne_of_ne hkj)

omit hlast in
/-- Restored from the position of a retractable item, a stand-in brings back the items before the
push: it is not before its parent there, and sinks. -/
theorem Retractable.restore_eq (hr : Retractable order base risen last j)
    (hs : Shortens short risen last j) (hjm : j.val < m) (places : Places) :
    (restore order ⟨short, places⟩ ⟨j.val, hjm⟩).items.toArray = base := by
  have hrest : ¬ (0 < j.val ∧ (short.get ⟨j.val, hjm⟩).isBefore order
      (short.get (parent ⟨j.val, hjm⟩)) = true) := by
    rintro ⟨hpos, hb⟩
    have hjl : j ≠ last := Fin.ne_of_val_ne (Nat.ne_of_lt (hs.size ▸ hjm))
    have hstand := hs.get j hjm
    have hparent := hs.get (parent j) (Nat.lt_of_le_of_lt (by rw [parent_val]; omega) hjm)
    rw [if_pos rfl] at hstand
    rw [if_neg (parent_ne hpos)] at hparent
    have hlow := hr.low hjl hpos
    rw [← hstand, ← hparent] at hlow
    exact Bool.false_ne_true (hlow.symm.trans hb)
  have hsink : restore order ⟨short, places⟩ ⟨j.val, hjm⟩ =
      siftDown order (settle ⟨short, places⟩ ⟨j.val, hjm⟩) ⟨j.val, hjm⟩ := restore_rest hrest
  rw [hsink]
  exact hr.back hs hjm _

theorem Retractable.removeAt_eq (hr : Retractable order base risen last j) (places : Places) :
    (removeAt order risen.toArray places j.val).1 = base := by
  have hback : risen.toArray.back? = some (risen.get last) := by
    have hn : risen.toArray.size - 1 = last.val := by
      rw [Vector.size_toArray]
      omega
    rw [Array.back?, hn]
    exact Array.getElem?_eq_getElem (by simp)
  have hs : Shortens (standIn risen.toArray (risen.get last) j.val).toVector risen last j :=
    standIn_shortens hlast
  rw [Heap.removeAt_eq hback]
  split
  next h => exact hr.restore_eq hs h places
  next h =>
    have hjl : j = last := by
      have := j.isLt
      have := hs.size
      exact Fin.ext (by omega)
    exact hr.full hjl hs

end Removal

section Pushes

variable (ho : InOrder order items) (hd : (item.handle :: items.toList.map Item.handle).Nodup)
include ho hd

theorem exists_removeAt_push (places : Places) : ∃ j,
    ∃ hj : j < (push order items places item).1.size, (push order items places item).1[j] = item ∧
    ∀ places', (removeAt order (push order items places item).1 places' j).1 = items := by
  have hsize : (push order items places item).1.size = (items.push item).size := by simp [push]
  obtain ⟨hr, hget⟩ := siftUp_retractable (by simp)
    ⟨(items.push item).toVector, places⟩ ⟨items.size, lt_size_push items item⟩ (push_retractable ho hd)
  generalize hrest : (siftUp order ⟨(items.push item).toVector, places⟩
    ⟨items.size, lt_size_push items item⟩).2 = rest at hr hget
  exact ⟨rest.val, Nat.lt_of_lt_of_eq rest.isLt hsize.symm, hget.trans Array.getElem_push_eq,
    fun places' => hr.removeAt_eq (by simp) places'⟩

/-- A push is taken back by the removal of the pushed item, if the table of places did not have its
handle before. -/
theorem removeAt_push (ha : OrderedTable.Ascending Handle.compare places)
    (hp : Placed items places) (hfresh : placeOf item.handle places = none) {j : Nat}
    (hj : placeOf item.handle (push order items places item).2 = some j) :
    removeAt order (push order items places item).1
      (OrderedTable.erase Handle.compare item.handle (push order items places item).2) j =
        (items, places) := by
  have hl := push_leaves ho ha hd hp
  obtain ⟨k, hk, hget, hremove⟩ := exists_removeAt_push ho hd places
  generalize push order items places item = out at hl hj hk hget hremove
  obtain rfl : j = k := by
    have hplaced := hl.placed k hk
    rw [hget, hj] at hplaced
    exact Option.some.inj hplaced
  have hhandles : (out.1.toList.map Item.handle).Perm
      (item.handle :: items.toList.map Item.handle) := by
    refine (hl.items.map Item.handle).trans ?_
    rw [List.map_append]
    exact List.perm_append_singleton _ _
  obtain ⟨hkept, hb⟩ := removeAt_leaves_erase hl.inOrder hl.ascending (hhandles.nodup_iff.2 hd)
    hl.placed hk (congrArg Item.handle hget)
  have hitems := hremove (OrderedTable.erase Handle.compare item.handle out.2)
  -- The table is the old one for the old items, for the pushed one, and for all others.
  refine Prod.ext hitems (OrderedTable.eq_of_find?_eq hb.ascending ha fun h => ?_)
  have hback := hb.placed
  rw [hitems] at hback
  change placeOf h _ = placeOf h places
  by_cases hm : h ∈ items.toList.map Item.handle
  · obtain ⟨x, hx, rfl⟩ := List.mem_map.1 hm
    obtain ⟨l, hlt, rfl⟩ := Array.mem_iff_getElem.1 (Array.mem_toList_iff.1 hx)
    rw [hback l hlt, hp l hlt]
  · have hsame := (List.perm_cons _).1 (hkept.trans hhandles)
    rw [hb.frame h fun hx => hm (hsame.mem_iff.1 hx), placeOf_erase hl.ascending]
    split
    next he => rw [he, hfresh]
    next he =>
      refine hl.frame h fun hx => ?_
      rw [List.map_append, List.mem_append] at hx
      exact he (List.mem_singleton.1 (hx.resolve_left hm))

end Pushes

end IndexedStore.Heap
