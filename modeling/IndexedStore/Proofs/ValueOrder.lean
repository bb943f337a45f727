import IndexedStore.Proofs.Descriptions

/-!
# Values in order, equal and hashed

The order of values is a total preorder in which the type comes first and the sentinel comes first
within its type. Values are level exactly if they are one value, up to the sign of a zero and the
bits of a NaN. Level values hash alike, so keys that a projection takes for the same have one hash.
-/
namespace IndexedStore

namespace FieldType

theorem rank_inj {s t : FieldType} : s.rank = t.rank ↔ s = t := by
  cases s <;> cases t <;> decide

end FieldType

namespace Double

variable {a b : Double}

theorem rank_of_isNaN (h : a.isNaN = true) : a.rank = 0x8000000000000000 := by
  rw [rank, if_pos h]

theorem isNaN_eq_of_rank (h : a.rank = b.rank) : a.isNaN = b.isNaN := by
  cases ha : a.isNaN <;> cases hb : b.isNaN
  case false.true =>
    have hlt := (rank_lt a ha).2
    rw [h, rank_of_isNaN hb] at hlt
    exact absurd hlt (by decide)
  case true.false =>
    have hlt := (rank_lt b hb).2
    rw [← h, rank_of_isNaN ha] at hlt
    exact absurd hlt (by decide)
  all_goals rfl

theorem rank_of_zero (h : a.magnitude = 0) : a.rank = 0 := by
  have hn : a.isNaN = false := by simp [isNaN, h]
  simp [rank, hn, h]

/-- Doubles are level if they are one, two zeros or two NaNs. -/
theorem rank_eq_iff : a.rank = b.rank ↔
    a = b ∨ (a.magnitude = 0 ∧ b.magnitude = 0) ∨ (a.isNaN = true ∧ b.isNaN = true) := by
  constructor
  · intro h
    have hnan := isNaN_eq_of_rank h
    cases ha : a.isNaN with
    | true => exact .inr (.inr ⟨rfl, hnan ▸ ha⟩)
    | false => exact (eq_or_zero_of_rank h ha (hnan ▸ ha)).imp_right .inl
  · rintro (rfl | ⟨ha, hb⟩ | ⟨ha, hb⟩)
    · rfl
    · rw [rank_of_zero ha, rank_of_zero hb]
    · rw [rank_of_isNaN ha, rank_of_isNaN hb]

end Double

namespace Value

variable {a b v : Value}

/-- Two values are one value, but for the sign of a zero and the bits of a NaN. -/
inductive Alike : Value → Value → Prop
  | refl (v : Value) : Alike v v
  | zeros {x y : Double} (hx : x.magnitude = 0) (hy : y.magnitude = 0) :
    Alike (.double x) (.double y)
  | nans {x y : Double} (hx : x.isNaN = true) (hy : y.isNaN = true) :
    Alike (.double x) (.double y)

theorem compare_eq_iff_alike : a.compare b = .eq ↔ Alike a b := by
  rw [compare_eq_eq_iff]
  constructor
  · rintro ⟨htype, hunset, hnumber, hwording⟩
    cases a <;> cases b <;> simp only [type, reduceCtorEq, isUnset, Bool.true_eq_false,
      Bool.false_eq_true] at htype hunset
    case int.int m n =>
      obtain rfl := Int32.toInt_inj.1 hnumber
      exact .refl _
    case long.long m n | date.date m n =>
      obtain rfl := Int64.toInt_inj.1 hnumber
      exact .refl _
    case double.double x y =>
      rcases Double.rank_eq_iff.1 hnumber with rfl | ⟨hx, hy⟩ | ⟨hx, hy⟩
      · exact .refl _
      · exact .zeros hx hy
      · exact .nans hx hy
    case str.str s t =>
      obtain rfl : s = t := hwording
      exact .refl _
    case bool.bool p q =>
      obtain rfl : p = q := by
        cases p <;> cases q <;> simp_all [number]
      exact .refl _
    case unset.unset s t =>
      obtain rfl : s = t := htype
      exact .refl _
  · rintro (_ | ⟨hx, hy⟩ | ⟨hx, hy⟩)
    · exact ⟨rfl, rfl, rfl, rfl⟩
    · exact ⟨rfl, rfl, Double.rank_eq_iff.2 (.inr (.inl ⟨hx, hy⟩)), rfl⟩
    · exact ⟨rfl, rfl, Double.rank_eq_iff.2 (.inr (.inr ⟨hx, hy⟩)), rfl⟩

theorem compare_of_type_ne (h : a.type ≠ b.type) :
    a.compare b = Ord.compare a.type.rank b.type.rank := by
  have hrank : Ord.compare a.type.rank b.type.rank ≠ .eq := fun heq =>
    h (FieldType.rank_inj.1 (Std.LawfulEqCmp.eq_of_compare heq))
  rw [compare_eq_compareParts, compareParts, compareLex, compareOn]
  cases hcmp : Ord.compare a.type.rank b.type.rank with
  | eq => exact absurd hcmp hrank
  | lt | gt => rfl

theorem compare_unset (h : v.isUnset = false) : (Value.unset v.type).compare v = .lt := by
  cases v with
  | unset => cases h
  | _ => rfl

theorem hashFeed_eq (h : a.compare b = .eq) : a.hashFeed = b.hashFeed := by
  rw [hashFeed, hashFeed, type_eq h, hashBlock_eq h]

end Value

namespace Projection

variable {shape : Shape} {positions : List Nat} {comparison : Comparison} {π : Projection}
  {a b : Entry}

theorem hash_of_sameKey (hπ : onPositions shape positions comparison = .ok π)
    (ha : a.Conforms shape) (hb : b.Conforms shape) :
    ∃ same x y, π.sameKey a b = .ok same ∧ π.hash a = .ok x ∧ π.hash b = .ok y ∧
      (same = true → x = y) := by
  have hin := (onPositions_spec hπ).1
  exact ⟨_, _, _, sameKey_eq (hin.fits ha) (hin.fits hb), hash_eq (hin.fits ha),
    hash_eq (hin.fits hb), fun hsame => Key.hash_eq (same_keyOf_iff.1 hsame)⟩

end Projection

/-- The order of values is a total preorder, equality is to be level in it, and both agree with the
hashes of values and of keys. -/
theorem Value.order_lawful :
    (∀ a : Value, a.compare a = .eq) ∧
    (∀ a b : Value, a.compare b = (b.compare a).swap) ∧
    (∀ a b c : Value, (a.compare b).isLE = true → (b.compare c).isLE = true →
      (a.compare c).isLE = true) ∧
    (∀ a b : Value, (a.same b = true ↔ a.compare b = .eq) ∧ (a.same b = true ↔ Alike a b)) ∧
    (∀ a b : Value, a.type ≠ b.type →
      a.same b = false ∧ a.compare b = Ord.compare a.type.rank b.type.rank) ∧
    (∀ v : Value, v.isUnset = false → (Value.unset v.type).compare v = .lt) ∧
    (∀ a b : Value, a.same b = true → a.hashBlock = b.hashBlock ∧ a.hashFeed = b.hashFeed) ∧
    (∀ (shape : Shape) (positions : List Nat) (comparison : Comparison) (π : Projection),
      Projection.onPositions shape positions comparison = .ok π → ∀ a b : Entry,
        a.Conforms shape → b.Conforms shape →
        ∃ same x y, π.sameKey a b = .ok same ∧ π.hash a = .ok x ∧ π.hash b = .ok y ∧
          (same = true → x = y)) := by
  refine ⟨?reflexive, ?reversed, ?transitive, ?equality, ?types, ?sentinels, ?hashes, ?keys⟩
  case reflexive => exact fun a => Std.ReflCmp.compare_self
  case reversed => exact fun a b => Std.OrientedCmp.eq_swap
  case transitive => exact fun a b c => Std.TransCmp.isLE_trans
  case equality => exact fun a b => ⟨same_eq_true_iff, same_eq_true_iff.trans compare_eq_iff_alike⟩
  case types =>
    refine fun a b h => ⟨?_, compare_of_type_ne h⟩
    rw [← Bool.not_eq_true, same_eq_true_iff]
    exact fun level => h (type_eq level)
  case sentinels => exact fun v h => compare_unset h
  case hashes =>
    intro a b h
    have level := same_eq_true_iff.1 h
    exact ⟨hashBlock_eq level, hashFeed_eq level⟩
  case keys => exact fun _ _ _ _ hπ a b ha hb => Projection.hash_of_sameKey hπ ha hb

/-- Two zeros, two NaNs with other bits, an infinity, and sentinels beside values of their own and of
another type. -/
theorem Value.order_lawful_of_doubles :
    let zero : Value := .double ⟨0⟩
    let negative : Value := .double ⟨0x8000000000000000⟩
    let infinity : Value := .double ⟨0x7ff0000000000000⟩
    let quiet : Value := .double ⟨0x7ff8000000000000⟩
    let signalling : Value := .double ⟨0xfff0000000000001⟩
    (zero.same negative = true ∧ zero.hashFeed = negative.hashFeed) ∧
    (quiet.same signalling = true ∧ quiet.hashFeed = signalling.hashFeed) ∧
    (negative.compare quiet).isLE = true ∧
    (Value.unset .double).compare infinity = .lt ∧
    ((Value.unset .long).compare (.int 5) = Ord.compare 1 0 ∧
      (.int 5 : Value).same (.long 5) = false) ∧
    ∃ π x y, Projection.onPositions ⟨[.double]⟩ [1] .equality = .ok π ∧
      π.sameKey ⟨⟨[.double]⟩, [zero]⟩ ⟨⟨[.double]⟩, [negative]⟩ = .ok true ∧
      π.hash ⟨⟨[.double]⟩, [zero]⟩ = .ok x ∧ π.hash ⟨⟨[.double]⟩, [negative]⟩ = .ok y ∧ x = y := by
  obtain ⟨-, -, htrans, hequal, htypes, hsentinel, hhashes, hkeys⟩ := Value.order_lawful
  have hzeros : (Value.double ⟨0⟩).same (.double ⟨0x8000000000000000⟩) = true :=
    (hequal _ _).2.2 (.zeros (by decide) (by decide))
  have hnans : (Value.double ⟨0x7ff8000000000000⟩).same (.double ⟨0xfff0000000000001⟩) = true :=
    (hequal _ _).2.2 (.nans (by decide) (by decide))
  refine ⟨⟨hzeros, (hhashes _ _ hzeros).2⟩, ⟨hnans, (hhashes _ _ hnans).2⟩,
    htrans _ (.double ⟨0x7ff0000000000000⟩) _ (by decide) (by decide),
    hsentinel (.double ⟨0x7ff0000000000000⟩) rfl, ⟨(htypes _ _ (by decide)).2,
    (htypes _ _ (by decide)).1⟩, ?_⟩
  obtain ⟨same, x, y, hsame, hx, hy, hxy⟩ := hkeys ⟨[.double]⟩ [1] .equality _ rfl
    ⟨⟨[.double]⟩, [.double ⟨0⟩]⟩ ⟨⟨[.double]⟩, [.double ⟨0x8000000000000000⟩]⟩ (by decide) (by decide)
  obtain rfl : true = same := Except.ok.inj (Eq.trans (by decide) hsame)
  exact ⟨_, x, y, rfl, hsame, hx, hy, hxy rfl⟩

end IndexedStore
