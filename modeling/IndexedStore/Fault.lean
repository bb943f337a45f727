import IndexedStore.Error

/-!
# Faults

A fault ends an operation whose preconditions do not hold. Operations that can fault answer in
`Checked`; under their preconditions they never do.
-/
namespace IndexedStore

inductive Arithmetic where
  | add | subtract | multiply
  deriving DecidableEq, Repr

namespace Arithmetic

def verb : Arithmetic → String
  | .add => "add"
  | .subtract => "subtract"
  | .multiply => "multiply"

end Arithmetic

inductive Fault where
  /-- An unchecked write or read that its checked form would report as an error. -/
  | misuse (error : Error)
  /-- An offset past the end of a row of `length` items. -/
  | outOfBounds (length offset : Nat)
  /-- The first `stop` items of a row that has only `length`. -/
  | outOfRange (length stop : Nat)
  /-- An amount of one type added to a field of another, or to a field that is not numeric. -/
  | accumulation (amount field : FieldType) (position : Nat)
  /-- A lookup key whose shape is not the store's. -/
  | foreignKey (key store : Shape)
  /-- A result that is not in the range of its type. -/
  | overflow (operation : Arithmetic)
  /-- A branch that is held to be impossible. -/
  | unreachable (reason : String)
  /-- A handle that its former place does not take back. -/
  | unrestorable
  deriving DecidableEq, Repr

namespace Fault

def message : Fault → String
  | .misuse error => error.message
  | .outOfBounds length offset =>
    s!"index out of bounds: the len is {length} but the index is {offset}"
  | .outOfRange length stop =>
    s!"range end index {stop} out of range for slice of length {length}"
  | .accumulation amount field position =>
    s!"cannot accumulate {amount.name} into {field.name} position {position}"
  | .foreignKey key store =>
    "assertion `left == right` failed: lookup key of a different shape\n  left: " ++
      key.diagnostic ++ "\n right: " ++ store.diagnostic
  | .overflow operation => s!"attempt to {operation.verb} with overflow"
  | .unreachable reason => s!"internal error: entered unreachable code: {reason}"
  | .unrestorable => "prior placement must be restorable"

end Fault

/-- The result of an operation that may fault. -/
abbrev Checked := Except Fault

def itemAt {α : Type} (items : List α) (offset : Nat) : Checked α :=
  match items[offset]? with
  | some item => .ok item
  | none => .error (.outOfBounds items.length offset)

def decrement : Nat → Checked Nat
  | 0 => .error (.overflow .subtract)
  | n + 1 => .ok n

def sumOf (a b : Nat) : Checked Nat :=
  if a + b < UInt64.size then .ok (a + b) else .error (.overflow .add)

def productOf (a b : Nat) : Checked Nat :=
  if a * b < UInt64.size then .ok (a * b) else .error (.overflow .multiply)

def differenceOf (a b : Int64) : Checked Int :=
  let exact := a.toInt - b.toInt
  if -0x8000000000000000 ≤ exact ∧ exact < 0x8000000000000000 then .ok exact
  else .error (.overflow .subtract)

def keep {α : Type} (test : α → Checked Bool) : List α → Checked (List α)
  | [] => .ok []
  | item :: rest => do
    let passes ← test item
    let kept ← keep test rest
    return if passes then item :: kept else kept

theorem keep_eq_filter {α : Type} {test : α → Checked Bool} {plain : α → Bool} {items : List α}
    (h : ∀ item ∈ items, test item = .ok (plain item)) :
    keep test items = .ok (items.filter plain) := by
  induction items with
  | nil => rfl
  | cons item rest ih =>
    have tail : keep test rest = .ok (rest.filter plain) :=
      ih fun x hx => h x (List.mem_cons_of_mem _ hx)
    rw [keep, h item List.mem_cons_self, tail]
    cases hp : plain item <;> simp [bind, Except.bind, pure, Except.pure, hp]

end IndexedStore
