import Mathlib.Data.List.Forall2
import Mathlib.Data.List.Sort

/-!
# Stable orders

Items in ascending order of their keys. Where keys can be level without being the same, the order of
the keys alone does not determine such a list; together with the order among items of level keys it
does. A stable sort keeps the latter.
-/
namespace IndexedStore.StableOrder

variable {α β κ : Type} (compare : κ → κ → Ordering) (key : α → κ)

def Ascends (items : List α) : Prop :=
  items.Pairwise fun a b => (compare (key a) (key b)).isLE

def levelWith (k : κ) (items : List α) : List α := items.filter fun a => (compare k (key a)).isEq

/-- Items in order of their keys; those of level keys stay in the order they come in. -/
def arranged (items : List α) : List α :=
  items.insertionSort fun a b => (compare (key a) (key b)).isLE

variable {compare key} {a : α} {k : κ} {items others : List α}

theorem mem_levelWith : a ∈ levelWith compare key k items ↔
    a ∈ items ∧ compare k (key a) = .eq := by
  simp [levelWith]

theorem levelWith_congr [Std.TransCmp compare] {j : κ} (h : compare j k = .eq) :
    levelWith compare key j items = levelWith compare key k items := by
  simp only [levelWith, Std.TransCmp.congr_left h]

theorem perm_arranged : (arranged compare key items).Perm items := List.perm_insertionSort _ items

section Arranged

variable [Std.TransCmp compare]

instance total_isLE : Std.Total fun a b : α => (compare (key a) (key b)).isLE = true where
  total a b := by
    rw [← Std.OrientedCmp.isGE_iff_isLE (a := key a)]
    cases compare (key a) (key b) <;> simp

instance isTrans_isLE : IsTrans α fun a b : α => (compare (key a) (key b)).isLE = true where
  trans _ _ _ := Std.TransCmp.isLE_trans

theorem ascends_arranged : Ascends compare key (arranged compare key items) :=
  List.pairwise_insertionSort _ items

theorem ascends_levelWith (k : κ) : Ascends compare key (levelWith compare key k items) := by
  refine List.pairwise_of_forall_mem_list fun a ha b hb => ?_
  have hab := Std.TransCmp.eq_trans (Std.OrientedCmp.eq_symm (mem_levelWith.1 ha).2)
    (mem_levelWith.1 hb).2
  rw [hab]
  rfl

/-- The items of level keys are a sublist in order, which the sort does not tear apart. -/
theorem levelWith_arranged (k : κ) :
    levelWith compare key k (arranged compare key items) = levelWith compare key k items := by
  have hsub : (levelWith compare key k items).Sublist (arranged compare key items) :=
    List.sublist_insertionSort (ascends_levelWith k) List.filter_sublist
  have hself : levelWith compare key k (levelWith compare key k items) =
      levelWith compare key k items := by simp [levelWith]
  have hparts : (levelWith compare key k items).Sublist
      (levelWith compare key k (arranged compare key items)) := hself ▸ hsub.filter _
  exact (hparts.eq_of_length (perm_arranged.filter _).length_eq.symm).symm

end Arranged

/-! ## What determines a list in order -/

section Determined

variable {r : α → α → Prop} {rest : List α}

theorem levelWith_cons : levelWith compare key k (a :: rest) =
    if compare k (key a) = .eq then a :: levelWith compare key k rest
    else levelWith compare key k rest := by
  simp [levelWith, List.filter_cons]

variable [Std.TransCmp compare]

theorem levelWith_self : levelWith compare key (key a) (a :: rest) =
    a :: levelWith compare key (key a) rest := by
  rw [levelWith_cons, if_pos Std.ReflCmp.compare_self]

theorem head_isLE (h : Ascends compare key (a :: rest))
    (hk : levelWith compare key k (a :: rest) ≠ []) : (compare (key a) k).isLE := by
  obtain ⟨b, hb⟩ := List.exists_mem_of_ne_nil _ hk
  obtain ⟨hb, level⟩ := mem_levelWith.1 hb
  rw [Std.TransCmp.congr_right level]
  rcases List.mem_cons.1 hb with rfl | hb
  · simp [Std.ReflCmp.compare_self]
  · exact (List.pairwise_cons.1 h).1 b hb

theorem eq_nil_iff_of_forall₂ (h : List.Forall₂ r items others) :
    items = [] ↔ others = [] := by
  cases h <;> simp

/-- Lists in order are related one by one if their items of each level are. -/
theorem forall₂_of_levelWith (hi : Ascends compare key items) (ho : Ascends compare key others)
    (h : ∀ k, List.Forall₂ r (levelWith compare key k items) (levelWith compare key k others)) :
    List.Forall₂ r items others := by
  induction items generalizing others with
  | nil =>
    cases others with
    | nil => exact .nil
    | cons b others =>
      have hnil := (eq_nil_iff_of_forall₂ (h (key b))).1 rfl
      rw [levelWith_self] at hnil
      cases hnil
  | cons a items ih =>
    cases others with
    | nil =>
      have hnil := (eq_nil_iff_of_forall₂ (h (key a))).2 rfl
      rw [levelWith_self] at hnil
      cases hnil
    | cons b others =>
      -- Each head has items of its level in the other list, so neither is below the other.
      have level : compare (key a) (key b) = .eq := by
        have hle := head_isLE hi (mt (eq_nil_iff_of_forall₂ (h (key b))).1 (by simp [levelWith_self]))
        have hge := head_isLE ho (mt (eq_nil_iff_of_forall₂ (h (key a))).2 (by simp [levelWith_self]))
        exact Std.OrientedCmp.isLE_antisymm hle hge
      have hheads := h (key a)
      rw [levelWith_self, levelWith_cons, if_pos level] at hheads
      refine .cons (List.forall₂_cons.1 hheads).1 (ih hi.of_cons ho.of_cons fun k => ?_)
      have hk := h k
      rw [levelWith_cons, levelWith_cons, ← Std.TransCmp.congr_right level] at hk
      split at hk
      · exact (List.forall₂_cons.1 hk).2
      · exact hk

theorem eq_of_levelWith (hi : Ascends compare key items) (ho : Ascends compare key others)
    (h : ∀ k, levelWith compare key k items = levelWith compare key k others) : items = others := by
  have hall := forall₂_of_levelWith (r := Eq) hi ho fun k => by rw [h k, List.forall₂_eq_eq_eq]
  rwa [List.forall₂_eq_eq_eq] at hall

theorem forall₂_level_of_perm (hi : Ascends compare key items) (ho : Ascends compare key others)
    (h : items.Perm others) :
    List.Forall₂ (fun a b => compare (key a) (key b) = .eq) items others := by
  refine forall₂_of_levelWith hi ho fun k => ?_
  rw [List.forall₂_iff_zip]
  refine ⟨(h.filter _).length_eq, fun {a b} hab => ?_⟩
  have ⟨ha, hb⟩ := List.of_mem_zip hab
  exact Std.TransCmp.eq_trans (Std.OrientedCmp.eq_symm (mem_levelWith.1 ha).2) (mem_levelWith.1 hb).2

end Determined

/-! ## Levels side by side -/

section Levels

variable [Std.TransCmp compare] {keys : List κ}

theorem levelWith_levelWith (j k : κ) : levelWith compare key j (levelWith compare key k items) =
    if compare j k = .eq then levelWith compare key j items else [] := by
  split
  next level =>
    rw [← levelWith_congr level, levelWith, levelWith, List.filter_filter]
    simp only [Bool.and_self]
  next hjk =>
    refine List.filter_eq_nil_iff.2 fun a ha => ?_
    rw [Ordering.isEq_iff_eq_eq]
    intro hj
    exact hjk (Std.TransCmp.eq_trans hj (Std.OrientedCmp.eq_symm (mem_levelWith.1 ha).2))

theorem flatMap_level (hk : keys.Pairwise fun j k => compare j k = .lt) (k : κ) :
    (keys.flatMap fun j => if compare k j = .eq then items else []) =
      if ∃ j ∈ keys, compare k j = .eq then items else [] := by
  induction keys with
  | nil => simp
  | cons j keys ih =>
    obtain ⟨habove, hrest⟩ := List.pairwise_cons.1 hk
    rw [List.flatMap_cons, ih hrest]
    by_cases level : compare k j = .eq
    · have hnone : ¬∃ i ∈ keys, compare k i = .eq := by
        rintro ⟨i, hi, hki⟩
        have hlt := habove i hi
        rw [← Std.TransCmp.congr_left level, hki] at hlt
        cases hlt
      simp [level, hnone]
    · simp [level]

/-- The items level by level, in order of the levels, are the items in order of their keys. -/
theorem flatMap_levelWith (hk : keys.Pairwise fun j k => compare j k = .lt)
    (hall : ∀ a ∈ items, ∃ k ∈ keys, compare (key a) k = .eq) :
    (keys.flatMap fun k => levelWith compare key k items) = arranged compare key items := by
  have hascends : Ascends compare key (keys.flatMap fun k => levelWith compare key k items) := by
    refine List.pairwise_flatMap.2 ⟨fun j _ => ascends_levelWith j, hk.imp fun hlt a ha b hb => ?_⟩
    have hab := Std.TransCmp.lt_of_eq_of_lt (Std.OrientedCmp.eq_symm (mem_levelWith.1 ha).2)
      (Std.TransCmp.lt_of_lt_of_eq hlt (mem_levelWith.1 hb).2)
    rw [hab]
    rfl
  refine eq_of_levelWith hascends ascends_arranged fun k => ?_
  have hparts : levelWith compare key k (keys.flatMap fun j => levelWith compare key j items) =
      keys.flatMap fun j => if compare k j = .eq then levelWith compare key k items else [] := by
    rw [levelWith, List.filter_flatMap]
    exact congrArg keys.flatMap (funext fun j => levelWith_levelWith k j)
  rw [hparts, flatMap_level hk, levelWith_arranged, ite_eq_left_iff]
  intro hnone
  refine (List.filter_eq_nil_iff.2 fun a ha level => ?_).symm
  obtain ⟨j, hj, hlevel⟩ := hall a ha
  exact hnone ⟨j, hj, Std.TransCmp.eq_trans (Ordering.isEq_iff_eq_eq.1 level) hlevel⟩

end Levels

end IndexedStore.StableOrder
