import IndexedStore.Projection
import IndexedStore.Value.Order

/-!
# The order of keys

Keys are ordered as tuples of values, so their order is a total preorder as well.
-/
namespace IndexedStore.Key

instance : Std.TransCmp compare := inferInstanceAs (Std.TransCmp (List.compareLex Value.compare))

theorem same_comm (a b : Key) : same a b = same b a := by
  induction a generalizing b with
  | nil => cases b <;> rfl
  | cons x a ih =>
    cases b with
    | nil => rfl
    | cons y b =>
      have tail := ih b
      simp only [same, List.zip_cons_cons, List.all_cons] at tail ⊢
      rw [tail, Value.same_comm]

end IndexedStore.Key
