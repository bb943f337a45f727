import Mathlib.Data.Multiset.ZeroCons

/-!
# First fit

Two lists are matched by giving each item of the one, in turn, the first item of the other that fits
it and is still free. A match found so is a pairing of the two as multisets, and the same match is
found from the other side. A pairing is found in some order of the second list, but not in every
order: an item can take what another one needs. It is found in every order if items that share a fit
share all their fits.
-/
namespace IndexedStore

variable {α β : Type} {r : α → β → Bool} {x : α} {xs : List α} {ys : List β}

/-- Whether every item of a list finds a fit of its own in another one, the first free one. -/
def firstFit (r : α → β → Bool) : List α → List β → Bool
  | [], _ => true
  | x :: xs, ys => ys.any (r x) && firstFit r xs (ys.eraseP (r x))

/-- Items on the left that share a fit share all their fits. -/
def Difunctional (r : α → β → Bool) (xs : Multiset α) (ys : Multiset β) : Prop :=
  ∀ x ∈ xs, ∀ x' ∈ xs, ∀ y ∈ ys, ∀ y' ∈ ys, r x y && r x' y && r x y' → r x' y'

instance (xs : Multiset α) (ys : Multiset β) : Decidable (Difunctional r xs ys) :=
  inferInstanceAs (Decidable
    (∀ x ∈ xs, ∀ x' ∈ xs, ∀ y ∈ ys, ∀ y' ∈ ys, r x y && r x' y && r x y' → r x' y'))

theorem firstFit_of_misfit (h : ∀ y ∈ ys, r x y = false) : firstFit r (x :: xs) ys = false := by
  have hnone : ys.any (r x) = false := List.any_eq_false.2 fun y hy => by simp [h y hy]
  rw [firstFit, hnone, Bool.false_and]

theorem firstFit_of_fit {before after : List β} {y : β}
    (hbefore : ∀ z ∈ before, r x z = false) (hy : r x y = true) :
    firstFit r (x :: xs) (before ++ y :: after) = firstFit r xs (before ++ after) := by
  have hnone : ∀ z ∈ before, ¬ r x z = true := fun z hz => by simp [hbefore z hz]
  rw [firstFit, List.eraseP_append_right _ hnone, List.eraseP_cons_of_pos hy]
  simp [hy]

theorem firstFit_cons_cons {y : β} (hy : r x y = true) :
    firstFit r (x :: xs) (y :: ys) = firstFit r xs ys := by simp [firstFit, hy]

theorem misfit_or_exists_first (r : α → β → Bool) (x : α) (ys : List β) :
    (∀ y ∈ ys, r x y = false) ∨ ∃ before y after, ys = before ++ y :: after ∧
      (∀ z ∈ before, r x z = false) ∧ r x y = true := by
  cases hfind : ys.find? (r x) with
  | none => exact .inl fun y hy => by simpa using List.find?_eq_none.1 hfind y hy
  | some y =>
    obtain ⟨hy, before, after, rfl, hbefore⟩ := List.find?_eq_some_iff_append.1 hfind
    exact .inr ⟨before, y, after, rfl, fun z hz => by simpa using hbefore z hz, hy⟩

theorem rel_of_firstFit (h : firstFit r xs ys = true) (hlength : xs.length = ys.length) :
    Multiset.Rel (fun x y => r x y = true) xs ys := by
  induction xs generalizing ys with
  | nil =>
    obtain rfl := List.length_eq_zero_iff.1 hlength.symm
    exact .zero
  | cons x xs ih =>
    obtain hnone | ⟨before, y, after, rfl, hbefore, hy⟩ := misfit_or_exists_first r x ys
    · rw [firstFit_of_misfit hnone] at h
      cases h
    · rw [firstFit_of_fit hbefore hy] at h
      rw [← Multiset.cons_coe, Multiset.coe_eq_coe.2 List.perm_middle, ← Multiset.cons_coe]
      refine .cons hy (ih h ?_)
      simp only [List.length_cons, List.length_append] at hlength ⊢
      omega

theorem exists_fit_of_firstFit (h : firstFit r xs ys = true) (hlength : xs.length = ys.length)
    (hx : x ∈ xs) : ∃ y ∈ ys, r x y = true :=
  Multiset.exists_mem_of_rel_of_mem (rel_of_firstFit h hlength) hx

/-- Every pairing is a match with the second list in some order. -/
theorem exists_perm_firstFit (hrel : Multiset.Rel (fun x y => r x y = true) xs ys) :
    ∃ order : List β, order.Perm ys ∧ firstFit r xs order = true := by
  induction xs generalizing ys with
  | nil => exact ⟨ys, .refl _, rfl⟩
  | cons x xs ih =>
    rw [← Multiset.cons_coe] at hrel
    obtain ⟨y, rest, hy, hrest, heq⟩ := Multiset.rel_cons_left.1 hrel
    obtain ⟨rest, rfl⟩ := Quot.exists_rep rest
    obtain ⟨order, hperm, hmatch⟩ := ih hrest
    have hall : ys.Perm (y :: rest) := Multiset.coe_eq_coe.1 heq
    exact ⟨y :: order, (hperm.cons y).trans hall.symm, (firstFit_cons_cons hy).trans hmatch⟩

/-- Seen from the other side, an item that is the first fit of what comes first takes it. -/
theorem firstFit_cons_right {before after : List β} {y : β}
    (hbefore : ∀ z ∈ before, r x z = false) (hy : r x y = true) :
    firstFit (flip r) (before ++ y :: after) (x :: xs) =
      firstFit (flip r) (before ++ after) xs := by
  induction before generalizing xs with
  | nil => exact firstFit_cons_cons hy
  | cons z before ih =>
    have hz : flip r z x = false := hbefore z List.mem_cons_self
    rw [List.cons_append, List.cons_append, firstFit, firstFit, List.any_cons, hz, Bool.false_or,
      List.eraseP_cons_of_neg (by simp [hz]), ih fun w hw => hbefore w (List.mem_cons_of_mem _ hw)]

/-- A match is found from either side or from neither. -/
theorem firstFit_flip (hlength : xs.length = ys.length) :
    firstFit (flip r) ys xs = firstFit r xs ys := by
  induction xs generalizing ys with
  | nil =>
    obtain rfl := List.length_eq_zero_iff.1 hlength.symm
    rfl
  | cons x xs ih =>
    obtain hnone | ⟨before, y, after, rfl, hbefore, hy⟩ := misfit_or_exists_first r x ys
    · rw [firstFit_of_misfit hnone, Bool.eq_false_iff]
      intro hmatch
      have hrel := Multiset.rel_flip.1 (rel_of_firstFit hmatch hlength.symm)
      obtain ⟨y, hy, hfit⟩ := Multiset.exists_mem_of_rel_of_mem hrel List.mem_cons_self
      exact absurd hfit (by simp [flip, hnone y hy])
    · rw [firstFit_cons_right hbefore hy, firstFit_of_fit hbefore hy]
      apply ih
      simp only [List.length_cons, List.length_append] at hlength ⊢
      omega

theorem firstFit_self {r : α → α → Bool} (h : ∀ x ∈ xs, r x x = true) :
    firstFit r xs xs = true := by
  induction xs with
  | nil => rfl
  | cons x xs ih =>
    rw [firstFit_cons_cons (h x List.mem_cons_self)]
    exact ih fun y hy => h y (List.mem_cons_of_mem _ hy)

theorem Difunctional.rel_exchange {y : β} {rest : Multiset β} {xs : Multiset α}
    (hr : Difunctional r (x ::ₘ xs) (y ::ₘ rest)) (hy : r x y = true)
    (hrel : Multiset.Rel (fun x y => r x y = true) (x ::ₘ xs) (y ::ₘ rest)) :
    Multiset.Rel (fun x y => r x y = true) xs rest := by
  obtain ⟨y', others, hy', hothers, heq⟩ := Multiset.rel_cons_left.1 hrel
  obtain ⟨rfl, rfl⟩ | ⟨-, others, rfl, rfl⟩ := Multiset.cons_eq_cons.1 heq
  · exact hothers
  · -- The one that has the wanted fit can do with the fit that is left over.
    obtain ⟨x', xs, hx', hrest, rfl⟩ := Multiset.rel_cons_right.1 hothers
    have hfit := hr x (by simp) x' (by simp) y (by simp) y' (by simp)
    exact .cons (hfit (by rw [hy, hx', hy']; rfl)) hrest

theorem Difunctional.mono {xs xs' : Multiset α} {ys ys' : Multiset β} (hr : Difunctional r xs ys)
    (hxs : xs' ⊆ xs) (hys : ys' ⊆ ys) : Difunctional r xs' ys' :=
  fun x hx x' hx' y hy y' hy' => hr x (hxs hx) x' (hxs hx') y (hys hy) y' (hys hy')

/-- If items that share a fit share all their fits, a pairing is found. -/
theorem Difunctional.firstFit_of_rel (hr : Difunctional r xs ys)
    (hrel : Multiset.Rel (fun x y => r x y = true) xs ys) : firstFit r xs ys = true := by
  induction xs generalizing ys with
  | nil => rfl
  | cons x xs ih =>
    obtain hnone | ⟨before, y, after, rfl, hbefore, hy⟩ := misfit_or_exists_first r x ys
    · obtain ⟨y, hy, hfit⟩ := Multiset.exists_mem_of_rel_of_mem hrel List.mem_cons_self
      exact absurd hfit (by simp [hnone y hy])
    · rw [firstFit_of_fit hbefore hy]
      rw [← Multiset.cons_coe, Multiset.coe_eq_coe.2 List.perm_middle, ← Multiset.cons_coe]
        at hr hrel
      refine ih (hr.mono ?_ ?_) (hr.rel_exchange hy hrel)
      · exact Multiset.subset_cons _ _
      · exact Multiset.subset_cons _ _

end IndexedStore
