import IndexedStore.Value.Basic

/-!
# The order of values

Values are ordered by four parts, one after another: the rank of the type, whether the value is set,
a number and a text. So the order is a total preorder, and two values are the same exactly if their
parts are.
-/
namespace IndexedStore.Value

def number : Value → Int
  | .int v => v.toInt
  | .long v | .date v => v.toInt
  | .double v => v.rank
  | .bool v => v.toNat
  | .str _ | .unset _ => 0

def wording : Value → String
  | .str v => v
  | _ => ""

def compareParts : Value → Value → Ordering :=
  compareLex (compareOn fun v => v.type.rank) <| compareLex (compareOn fun v => !v.isUnset) <|
    compareLex (compareOn number) (compareOn wording)

instance : Std.TransCmp compareParts := by
  unfold compareParts
  infer_instance

theorem compare_eq_compareParts : compare = compareParts := by
  funext a b
  cases a <;> cases b
  case bool.bool a b => cases a <;> cases b <;> rfl
  case unset.unset s t => cases s <;> cases t <;> rfl
  all_goals
    simp only [compare, compareParts, compareLex, compareOn, type, isUnset, number, wording,
      Double.compare, Std.ReflOrd.compare_self, Ordering.then_eq, Ordering.eq_then]
  all_goals rfl

instance : Std.TransCmp compare := compare_eq_compareParts ▸ inferInstance

theorem same_iff (a b : Value) : a.same b ↔
    a.type = b.type ∧ a.isUnset = b.isUnset ∧ a.number = b.number ∧ a.wording = b.wording := by
  have rank_inj : a.type.rank = b.type.rank ↔ a.type = b.type := by
    cases a.type <;> cases b.type <;> simp [FieldType.rank]
  simp [same, compare_eq_compareParts, compareParts, compareLex, compareOn,
    Ordering.then_eq_eq, rank_inj]

theorem same_comm (a b : Value) : a.same b = b.same a := by
  rw [Bool.eq_iff_iff, same_iff, same_iff]
  simp only [eq_comm]

end IndexedStore.Value
