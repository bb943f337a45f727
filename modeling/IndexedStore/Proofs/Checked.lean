import Mathlib.Data.List.Forall2
import IndexedStore.Fault

/-!
# Results that are not faults

A sequence of checks that all succeed answers what the plain operation on lists answers, and a
traversal that succeeds relates its items to its results one by one.
-/
namespace IndexedStore.Checked

section Bind

variable {ε α β : Type}

@[simp] theorem ok_bind (x : α) (f : α → Except ε β) : (Except.ok x >>= f) = f x := rfl

@[simp] theorem error_bind (e : ε) (f : α → Except ε β) : (Except.error e >>= f) = .error e := rfl

@[simp] theorem pure_eq_ok (x : α) : (pure x : Except ε α) = .ok x := rfl

theorem bind_eq_ok {x : Except ε α} {f : α → Except ε β} {y : β} :
    (x >>= f) = .ok y ↔ ∃ a, x = .ok a ∧ f a = .ok y := by
  cases x <;> simp

theorem map_eq_ok {x : Except ε α} {f : α → β} {y : β} :
    f <$> x = .ok y ↔ ∃ a, x = .ok a ∧ f a = y := by
  cases x <;> simp [Functor.map, Except.map]

end Bind

section Lists

variable {α β : Type} {items : List α}

/-- A traversal succeeds exactly if it does at every item, with the results in order. -/
theorem mapM_eq_ok_iff {f : α → Checked β} {results : List β} :
    items.mapM f = .ok results ↔ List.Forall₂ (fun x y => f x = .ok y) items results := by
  induction items generalizing results with
  | nil => cases results <;> simp
  | cons x items ih =>
    simp only [List.mapM_cons, bind_eq_ok, ih, List.forall₂_cons_left_iff, pure_eq_ok,
      Except.ok.injEq]
    constructor
    · rintro ⟨y, hy, ys, hys, rfl⟩
      exact ⟨y, ys, hy, hys, rfl⟩
    · rintro ⟨y, ys, hy, hys, rfl⟩
      exact ⟨y, hy, ys, hys, rfl⟩

theorem mapM_eq_map {f : α → Checked β} {g : α → β} (h : ∀ x ∈ items, f x = .ok (g x)) :
    items.mapM f = .ok (items.map g) := by
  rw [mapM_eq_ok_iff, List.forall₂_map_right_iff, List.forall₂_same]
  exact h

theorem allM_eq_all {f : α → Checked Bool} {p : α → Bool} (h : ∀ x ∈ items, f x = .ok (p x)) :
    items.allM f = .ok (items.all p) := by
  induction items with
  | nil => rfl
  | cons x items ih =>
    rw [List.allM_cons, h x (by simp), ih fun y hy => h y (by simp [hy])]
    cases hp : p x <;> simp [hp]

theorem anyM_eq_any {f : α → Checked Bool} {p : α → Bool} (h : ∀ x ∈ items, f x = .ok (p x)) :
    items.anyM f = .ok (items.any p) := by
  induction items with
  | nil => rfl
  | cons x items ih =>
    rw [List.anyM_cons, h x (by simp), ih fun y hy => h y (by simp [hy])]
    cases hp : p x <;> simp [hp]

theorem findM?_eq_find? {f : α → Checked Bool} {p : α → Bool} (h : ∀ x ∈ items, f x = .ok (p x)) :
    items.findM? f = .ok (items.find? p) := by
  induction items with
  | nil => rfl
  | cons x items ih =>
    rw [List.findM?, h x (by simp), List.find?_cons]
    cases hp : p x
    · simpa using ih fun y hy => h y (by simp [hy])
    · rfl

theorem findM?_congr {f g : α → Checked Bool} (h : ∀ x ∈ items, f x = g x) :
    items.findM? f = items.findM? g := by
  induction items with
  | nil => rfl
  | cons x items ih =>
    rw [List.findM?, List.findM?, h x (by simp), ih fun y hy => h y (by simp [hy])]

theorem keep_congr {f g : α → Checked Bool} (h : ∀ x ∈ items, f x = g x) :
    keep f items = keep g items := by
  induction items with
  | nil => rfl
  | cons x items ih => rw [keep, keep, h x (by simp), ih fun y hy => h y (by simp [hy])]

theorem exists_of_mem_right {r : α → β → Prop} {results : List β}
    (h : List.Forall₂ r items results) {y : β} (hy : y ∈ results) : ∃ x ∈ items, r x y := by
  induction h with
  | nil => cases hy
  | cons hxy _ ih =>
    rcases List.mem_cons.1 hy with rfl | hy
    · exact ⟨_, List.mem_cons_self, hxy⟩
    · obtain ⟨x, hx, hr⟩ := ih hy
      exact ⟨x, List.mem_cons_of_mem _ hx, hr⟩

theorem exists_getElem?_right {r : α → β → Prop} {results : List β}
    (h : List.Forall₂ r items results) {i : Nat} {x : α} (hx : items[i]? = some x) :
    ∃ y, results[i]? = some y ∧ r x y := by
  induction h generalizing i with
  | nil => cases hx
  | @cons a b items results hab _ ih =>
    cases i with
    | zero =>
      obtain rfl := Option.some.inj hx
      exact ⟨b, rfl, hab⟩
    | succ i => exact ih hx

theorem forall₂_trans {γ : Type} {r : α → β → Prop} {t : β → γ → Prop} {middle : List β}
    {results : List γ} (h : List.Forall₂ r items middle) (h' : List.Forall₂ t middle results) :
    List.Forall₂ (fun x z => ∃ y, r x y ∧ t y z) items results := by
  induction h generalizing results with
  | nil =>
    cases h'
    exact .nil
  | cons hxy _ ih =>
    cases h' with
    | cons hyz hrest => exact .cons ⟨_, hxy, hyz⟩ (ih hrest)

theorem forall₂_zip {γ : Type} {r : α → β → Prop} {middle : List β} (f : α → γ)
    (h : List.Forall₂ r items middle) :
    List.Forall₂ (fun x z => z.1 = f x ∧ r x z.2) items ((items.map f).zip middle) := by
  induction h with
  | nil => exact .nil
  | cons hxy _ ih => exact .cons ⟨rfl, hxy⟩ ih

theorem exists_mapM_of_forall₂ {γ : Type} {r : α → β → Prop} {t : α → γ → Prop}
    {middle : List β} {f : β → Checked γ} (h : List.Forall₂ r items middle)
    (hf : ∀ x ∈ items, ∀ y, r x y → ∃ z, f y = .ok z ∧ t x z) :
    ∃ results, middle.mapM f = .ok results ∧ List.Forall₂ t items results := by
  induction h with
  | nil => exact ⟨[], rfl, .nil⟩
  | cons hxy _ ih =>
    obtain ⟨z, hz, hxz⟩ := hf _ List.mem_cons_self _ hxy
    obtain ⟨zs, hzs, hrest⟩ := ih fun x hx => hf x (List.mem_cons_of_mem _ hx)
    exact ⟨z :: zs, by simp [hz, hzs], .cons hxz hrest⟩

theorem map_eq_of_forall₂ {γ : Type} {r : α → β → Prop} {results : List β} {f : α → γ}
    {g : β → γ} (h : List.Forall₂ r items results) (hr : ∀ x y, r x y → g y = f x) :
    results.map g = items.map f := by
  induction h with
  | nil => rfl
  | cons hxy _ ih => rw [List.map_cons, List.map_cons, hr _ _ hxy, ih]

end Lists

theorem itemAt_eq {α : Type} {items : List α} {offset : Nat} {x : α}
    (h : items[offset]? = some x) : itemAt items offset = .ok x := by
  simp [itemAt, h]

theorem decrement_eq {n : Nat} (h : 0 < n) : decrement n = .ok (n - 1) := by
  cases n with
  | zero => cases h
  | succ n => rfl

end IndexedStore.Checked
