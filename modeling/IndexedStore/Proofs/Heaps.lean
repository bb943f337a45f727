import IndexedStore.Index.Heap
import IndexedStore.OrderedTable.Lemmas
import IndexedStore.Value.Order

/-!
# Heaps stay ordered

No item of an ordered heap is before its parent, so none is before the root. While an item moves,
only the pairs it is part of can be out of order: upwards the pair with its parent, downwards the
pairs with its children. Each exchange hands this on to the position the item comes to, and the
table of places is right for all positions but that one.
-/
namespace IndexedStore

theorem transCmp_comap {α β : Type} (f : α → β) (compare : β → β → Ordering)
    [Std.TransCmp compare] : Std.TransCmp fun a b => compare (f a) (f b) where
  eq_swap := Std.OrientedCmp.eq_swap
  isLE_trans := Std.TransCmp.isLE_trans

instance Direction.transCmp_apply {α : Type} (order : Direction) (compare : α → α → Ordering)
    [Std.TransCmp compare] : Std.TransCmp fun a b => order.apply (compare a b) := by
  cases order with
  | ascending => exact inferInstanceAs (Std.TransCmp compare)
  | descending =>
    have hswap : (fun a b => descending.apply (compare a b)) = fun a b => compare b a := by
      funext a b
      exact Std.OrientedCmp.eq_swap.symm
    rw [hswap]
    infer_instance

namespace Item

variable {order : Direction} {a b c : Item}

instance : Std.TransCmp (compare order) := by
  have hvalue := transCmp_comap Item.value fun a b => order.apply (a.compare b)
  have hhandle := transCmp_comap Item.handle Handle.compare
  exact inferInstanceAs (Std.TransCmp (compareLex _ _))

theorem isBefore_iff : a.isBefore order b = true ↔ compare order a b = .lt := by
  rw [isBefore]
  cases compare order a b <;> simp

theorem not_isBefore_iff : a.isBefore order b = false ↔ (compare order b a).isLE = true := by
  rw [isBefore, @Std.OrientedCmp.eq_swap _ (compare order) _ b a]
  cases compare order a b <;> simp

theorem not_isBefore_self : a.isBefore order a = false := by
  rw [not_isBefore_iff]
  exact Std.ReflCmp.isLE_rfl

theorem not_isBefore_of_isBefore (h : a.isBefore order b = true) : b.isBefore order a = false := by
  rw [not_isBefore_iff, isBefore_iff.1 h]
  rfl

theorem not_isBefore_trans (hab : a.isBefore order b = false) (hbc : b.isBefore order c = false) :
    a.isBefore order c = false := by
  rw [not_isBefore_iff] at hab hbc ⊢
  exact Std.TransCmp.isLE_trans hbc hab

theorem handle_eq (hab : a.isBefore order b = false) (hba : b.isBefore order a = false) :
    a.handle = b.handle := by
  rw [not_isBefore_iff] at hab hba
  have hlevel : compare order a b = .eq := Std.OrientedCmp.isLE_antisymm hba hab
  rw [compare, Ordering.then_eq_eq] at hlevel
  exact Std.LawfulEqCmp.eq_of_compare hlevel.2

theorem isBefore_congr {a' b' : Item} (ha : a.value.compare a'.value = .eq)
    (hah : a.handle = a'.handle) (hb : b.value.compare b'.value = .eq)
    (hbh : b.handle = b'.handle) : a.isBefore order b = a'.isBefore order b' := by
  have level {x y : Item} (hv : x.value.compare y.value = .eq) (hh : x.handle = y.handle) :
      compare order x y = .eq := by
    rw [compare, Ordering.then_eq_eq, hh]
    refine ⟨?_, Std.ReflCmp.compare_self⟩
    cases order <;> simp [Direction.apply, hv]
  rw [isBefore, isBefore, Std.TransCmp.congr_left (level ha hah),
    Std.TransCmp.congr_right (level hb hbh)]

theorem first?_spec {items : List Item} {best : Item} (h : first? order items = some best) :
    best ∈ items ∧ ∀ item ∈ items, item.isBefore order best = false := by
  have hfold (rest : List Item) (start : Item) :
      let last := rest.foldl (fun best x => if x.isBefore order best then x else best) start
      last ∈ start :: rest ∧ ∀ item ∈ start :: rest, item.isBefore order last = false := by
    induction rest generalizing start with
    | nil =>
      refine ⟨List.mem_cons_self, fun item hi => ?_⟩
      rw [List.mem_singleton.1 hi]
      exact not_isBefore_self
    | cons x rest ih =>
      obtain ⟨hm, hmin⟩ := ih (if x.isBefore order start then x else start)
      have hnext : (start.isBefore order (if x.isBefore order start then x else start) = false) ∧
          x.isBefore order (if x.isBefore order start then x else start) = false := by
        split
        next hb => exact ⟨not_isBefore_of_isBefore hb, not_isBefore_self⟩
        next hb => exact ⟨not_isBefore_self, eq_false_of_ne_true hb⟩
      refine ⟨?_, fun item hi => ?_⟩
      · rcases List.mem_cons.1 hm with hm | hm
        · rw [List.foldl_cons, hm]
          split <;> simp
        · exact List.mem_cons_of_mem _ (List.mem_cons_of_mem _ hm)
      · have hlast := hmin _ List.mem_cons_self
        rcases List.mem_cons.1 hi with rfl | hi
        · exact not_isBefore_trans hnext.1 hlast
        · rcases List.mem_cons.1 hi with rfl | hi
          · exact not_isBefore_trans hnext.2 hlast
          · exact hmin item (List.mem_cons_of_mem _ hi)
  cases items with
  | nil => cases h
  | cons item rest =>
    obtain rfl := Option.some.inj h
    exact hfold rest item

theorem first?_eq_none_iff {items : List Item} : first? order items = none ↔ items = [] := by
  cases items <;> simp [first?]

end Item

namespace Heap

variable {n : Nat} {order : Direction} {items : Vector Item n} {i j : Fin n}

def Ordered (order : Direction) (items : Vector Item n) : Prop :=
  ∀ j : Fin n, 0 < j.val → (items.get j).isBefore order (items.get (parent j)) = false

/-- Every pair that position `i` is no part of is in order, and so are the children of `i` with its
parent. -/
structure OrderedBut (order : Direction) (items : Vector Item n) (i : Fin n) : Prop where
  apart : ∀ j : Fin n, 0 < j.val → j ≠ i → parent j ≠ i →
    (items.get j).isBefore order (items.get (parent j)) = false
  across : 0 < i.val → ∀ j : Fin n, 0 < j.val → parent j = i →
    (items.get j).isBefore order (items.get (parent i)) = false

/-- Only the pair of position `i` with its parent can be out of order. -/
structure OrderedBelow (order : Direction) (items : Vector Item n) (i : Fin n) : Prop extends
    OrderedBut order items i where
  below : ∀ j : Fin n, 0 < j.val → parent j = i → (items.get j).isBefore order (items.get i) = false

/-- Only the pairs of position `i` with its children can be out of order. -/
structure OrderedAbove (order : Direction) (items : Vector Item n) (i : Fin n) : Prop extends
    OrderedBut order items i where
  above : 0 < i.val → (items.get i).isBefore order (items.get (parent i)) = false

@[simp] theorem parent_val : (parent i).val = (i.val - 1) / 2 := rfl

theorem parent_ne (h : 0 < i.val) : parent i ≠ i := by
  rw [ne_eq, Fin.ext_iff, parent_val]
  omega

theorem parent_parent_ne (h : 0 < i.val) : parent (parent i) ≠ i := by
  rw [ne_eq, Fin.ext_iff, parent_val, parent_val]
  omega

theorem swap_left : (items.swap i j i.isLt j.isLt).get i = items.get j :=
  Vector.getElem_swap_left ..

theorem swap_right : (items.swap i j i.isLt j.isLt).get j = items.get i :=
  Vector.getElem_swap_right ..

theorem swap_other {k : Fin n} (hi : k ≠ i) (hj : k ≠ j) :
    (items.swap i j i.isLt j.isLt).get k = items.get k :=
  Vector.getElem_swap_of_ne (Fin.val_ne_of_ne hi) (Fin.val_ne_of_ne hj)

/-! ## Upwards -/

/-- After an item rose, only the pair it is now part of upwards can be out of order. -/
theorem OrderedBelow.rise (ho : OrderedBelow order items i) (hi : 0 < i.val)
    (hb : (items.get i).isBefore order (items.get (parent i)) = true) :
    OrderedBelow order (items.swap i (parent i) i.isLt (parent i).isLt) (parent i) := by
  have hp := parent_ne hi
  have hup (hpos : 0 < (parent i).val) :
      (items.get (parent i)).isBefore order (items.get (parent (parent i))) = false :=
    ho.apart (parent i) hpos hp (parent_parent_ne hi)
  have hsib {j : Fin n} (hj : 0 < j.val) (hji : j ≠ i) (hpj : parent j = parent i) :
      (items.get j).isBefore order (items.get (parent i)) = false := by
    rw [← hpj]
    exact ho.apart j hj hji (by rw [hpj]; exact hp)
  refine ⟨⟨fun j hj hjp hpj => ?_, fun hpos j hj hpj => ?_⟩, fun j hj hpj => ?_⟩
  · have hji : j ≠ i := fun he => hpj (by rw [he])
    rw [swap_other hji hjp]
    by_cases hc : parent j = i
    · rw [hc, swap_left]
      exact ho.across hi j hj hc
    · rw [swap_other hc hpj]
      exact ho.apart j hj hji hc
  · have hjp : j ≠ parent i := fun he => parent_ne hj (hpj.trans he.symm)
    rw [swap_other (parent_parent_ne hi) (parent_ne hpos)]
    by_cases hji : j = i
    · rw [hji, swap_left]
      exact hup hpos
    · rw [swap_other hji hjp]
      exact Item.not_isBefore_trans (hsib hj hji hpj) (hup hpos)
  · have hjp : j ≠ parent i := fun he => parent_ne hj (hpj.trans he.symm)
    have hback := Item.not_isBefore_of_isBefore hb
    rw [swap_right]
    by_cases hji : j = i
    · rw [hji, swap_left]
      exact hback
    · rw [swap_other hji hjp]
      exact Item.not_isBefore_trans (hsib hj hji hpj) hback

/-- An item that is not before its parent completes the order. -/
theorem OrderedBelow.rest (ho : OrderedBelow order items i)
    (hb : ¬ (0 < i.val ∧ (items.get i).isBefore order (items.get (parent i)) = true)) :
    Ordered order items := by
  intro j hj
  by_cases hji : j = i
  · subst hji
    simpa using fun h => hb ⟨hj, h⟩
  · by_cases hc : parent j = i
    · rw [hc]
      exact ho.below j hj hc
    · exact ho.apart j hj hji hc

theorem siftUp_rise {heap : Heap n}
    (h : 0 < i.val ∧ (heap.items.get i).isBefore order (heap.items.get (parent i)) = true) :
    heap.siftUp order i = (heap.exchange i (parent i)).siftUp order (parent i) := by
  rw [siftUp]
  exact if_pos h

theorem siftUp_rest {heap : Heap n}
    (h : ¬ (0 < i.val ∧ (heap.items.get i).isBefore order (heap.items.get (parent i)) = true)) :
    heap.siftUp order i = (heap.settle i, i) := by
  rw [siftUp]
  exact if_neg h

theorem siftUp_ordered (heap : Heap n) (i : Fin n) (ho : OrderedBelow order heap.items i) :
    Ordered order (heap.siftUp order i).1.items := by
  induction heap, i using siftUp.induct order with
  | case1 heap i h ih =>
    rw [siftUp_rise h]
    exact ih (ho.rise h.1 h.2)
  | case2 heap i h =>
    rw [siftUp_rest h]
    exact ho.rest h

/-! ## Downwards -/

section Foremost

variable (order) (heap : Heap n)

theorem better_eq_or (best : Fin n) (j : Nat) :
    heap.better order best j = best ∨ (heap.better order best j).val = j := by
  unfold better
  split
  · split
    · exact .inr rfl
    · exact .inl rfl
  · exact .inl rfl

/-- The better of two positions is not after either. -/
theorem not_isBefore_better (best : Fin n) (j : Nat) {k : Fin n} (hk : k = best ∨ k.val = j) :
    (heap.items.get k).isBefore order (heap.items.get (heap.better order best j)) = false := by
  unfold better
  split
  next h =>
    split
    next hb =>
      rcases hk with rfl | rfl
      · exact Item.not_isBefore_of_isBefore hb
      · exact Item.not_isBefore_self
    next hb =>
      rcases hk with rfl | rfl
      · exact Item.not_isBefore_self
      · exact eq_false_of_ne_true hb
  next h =>
    rcases hk with rfl | rfl
    · exact Item.not_isBefore_self
    · exact absurd k.isLt h

theorem not_isBefore_foremost (i : Fin n) {k : Fin n}
    (hk : k = i ∨ 0 < k.val ∧ parent k = i) :
    (heap.items.get k).isBefore order (heap.items.get (heap.foremost order i)) = false := by
  have hstep := not_isBefore_better order heap (heap.better order i (2 * i.val + 1))
    (2 * i.val + 2) (.inl rfl)
  rw [foremost]
  rcases hk with rfl | ⟨hpos, hpk⟩
  · exact Item.not_isBefore_trans (not_isBefore_better order heap _ _ (.inl rfl)) hstep
  · rw [Fin.ext_iff, parent_val] at hpk
    have hchild : k.val = 2 * i.val + 1 ∨ k.val = 2 * i.val + 2 := by omega
    rcases hchild with hl | hr
    · exact Item.not_isBefore_trans (not_isBefore_better order heap _ _ (.inr hl)) hstep
    · exact not_isBefore_better order heap _ _ (.inr hr)

theorem foremost_eq_or_child (i : Fin n) : heap.foremost order i = i ∨
    0 < (heap.foremost order i).val ∧ parent (heap.foremost order i) = i := by
  rw [Fin.ext_iff, Fin.ext_iff, parent_val, foremost]
  have hleft := better_eq_or order heap i (2 * i.val + 1)
  rcases better_eq_or order heap (heap.better order i (2 * i.val + 1))
    (2 * i.val + 2) with hr | hr
  · rw [hr]
    rcases hleft with hl | hl
    · rw [hl]
      exact .inl rfl
    · omega
  · omega

end Foremost

/-- After an item sank below its foremost child, only the pairs it is now part of downwards can be
out of order. -/
theorem OrderedAbove.sink (ho : OrderedAbove order items i) {f : Fin n} (hpos : 0 < f.val)
    (hpf : parent f = i) (hmin : ∀ k : Fin n, k = i ∨ 0 < k.val ∧ parent k = i →
      (items.get k).isBefore order (items.get f) = false) :
    OrderedAbove order (items.swap i f i.isLt f.isLt) f := by
  have hne : f ≠ i := fun he => parent_ne hpos (hpf.trans he.symm)
  refine ⟨⟨fun j hj hjf hpj => ?_, fun _ j hj hpj => ?_⟩, fun _ => ?_⟩
  · by_cases hji : j = i
    · subst hji
      rw [swap_left, swap_other (parent_ne hj) hpj]
      exact ho.across hj f hpos hpf
    · rw [swap_other hji hjf]
      by_cases hc : parent j = i
      · rw [hc, swap_left]
        exact hmin j (.inr ⟨hj, hc⟩)
      · rw [swap_other hc hpj]
        exact ho.apart j hj hji hc
  · have hjf : j ≠ f := fun he => parent_ne hj (hpj.trans he.symm)
    have hji : j ≠ i := by
      rintro rfl
      exact parent_parent_ne hj (by rw [hpj, hpf])
    have hchild := ho.apart j hj hji (by rw [hpj]; exact hne)
    rw [hpf, swap_left, swap_other hji hjf]
    rwa [hpj] at hchild
  · rw [hpf, swap_left, swap_right]
    exact hmin i (.inl rfl)

theorem OrderedAbove.rest {heap : Heap n} (ho : OrderedAbove order heap.items i)
    (hi : heap.foremost order i = i) : Ordered order heap.items := by
  intro j hj
  by_cases hji : j = i
  · subst hji
    exact ho.above hj
  · by_cases hc : parent j = i
    · have hmin := not_isBefore_foremost order heap i (.inr ⟨hj, hc⟩)
      rw [hi] at hmin
      rwa [hc]
    · exact ho.apart j hj hji hc

theorem siftDown_sink {heap : Heap n} (h : heap.foremost order i ≠ i) : heap.siftDown order i =
    (heap.exchange i (heap.foremost order i)).siftDown order (heap.foremost order i) := by
  rw [siftDown]
  exact if_neg h

theorem siftDown_rest {heap : Heap n} (h : heap.foremost order i = i) :
    heap.siftDown order i = heap.settle i := by
  rw [siftDown]
  exact if_pos h

theorem siftDown_ordered (heap : Heap n) (i : Fin n) (ho : OrderedAbove order heap.items i) :
    Ordered order (heap.siftDown order i).items := by
  induction heap, i using siftDown.induct order with
  | case1 heap i h =>
    rw [siftDown_rest h]
    exact ho.rest h
  | case2 heap i h ih =>
    rw [siftDown_sink h]
    have ⟨hpos, hpf⟩ := (foremost_eq_or_child order heap i).resolve_left h
    exact ih (ho.sink hpos hpf fun k hk => not_isBefore_foremost order heap i hk)

/-! ## Either way -/

theorem siftUp_le (order : Direction) (heap : Heap n) (i : Fin n) : (heap.siftUp order i).2.val ≤ i.val := by
  induction heap, i using siftUp.induct order with
  | case1 heap i h ih =>
    rw [siftUp_rise h]
    rw [parent_val] at ih
    omega
  | case2 heap i h =>
    exact Nat.le_of_eq (by rw [siftUp_rest h])

theorem restore_eq (heap : Heap n) (i : Fin n) : heap.restore order i =
    if (heap.siftUp order i).2 = i then (heap.siftUp order i).1.siftDown order i
    else (heap.siftUp order i).1 := rfl

/-- An item that is not before its parent can only go down. -/
theorem restore_rest {heap : Heap n}
    (h : ¬ (0 < i.val ∧ (heap.items.get i).isBefore order (heap.items.get (parent i)) = true)) :
    heap.restore order i = (heap.settle i).siftDown order i := by
  rw [restore_eq, siftUp_rest h]
  exact if_pos rfl

/-- An item that does not fit at its position comes to rest up or else down. -/
theorem restore_ordered (heap : Heap n) (i : Fin n) (ho : OrderedBut order heap.items i) :
    Ordered order (heap.restore order i).items := by
  by_cases h : 0 < i.val ∧
      (heap.items.get i).isBefore order (heap.items.get (parent i)) = true
  · have hbelow : OrderedBelow order heap.items i := ⟨ho, fun j hj hpj =>
      Item.not_isBefore_trans (ho.across h.1 j hj hpj) (Item.not_isBefore_of_isBefore h.2)⟩
    have hrose : (heap.siftUp order i).2 ≠ i := by
      have hle := siftUp_le order (heap.exchange i (parent i)) (parent i)
      rw [parent_val] at hle
      rw [siftUp_rise h, ne_eq, Fin.ext_iff]
      omega
    rw [restore_eq, if_neg hrose]
    exact siftUp_ordered heap i hbelow
  · have habove : OrderedAbove order heap.items i := ⟨ho, fun hpos =>
      eq_false_of_ne_true fun hb => h ⟨hpos, hb⟩⟩
    rw [restore_rest h]
    exact siftDown_ordered (heap.settle i) i habove

end Heap
end IndexedStore
