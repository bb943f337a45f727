import IndexedStore.Store.Basic

/-!
# Contents of stores

Whether two stores hold the same entries, as often as each other, with a tolerance on doubles.
-/
namespace IndexedStore

/-- A probe for the entries that differ from an entry in doubles at most. -/
def Entry.withoutDoubles (e : Entry) : Entry :=
  { e with values := e.values.map fun
      | .double _ => .unset .double
      | v => v }

namespace Store

/-- Whether each entry of a list finds an entry of its own in a store, the first one close to it
among those not `used`. -/
def matchAll (s : Store) (used : List Handle) : List Entry → Checked Bool
  | [] => return true
  | e :: rest => do
    let candidates ← s.slice 0 e.withoutDoubles
    match candidates.find? fun (h, candidate) => h ∉ used ∧ candidate.isClose e with
    | some (h, _) => s.matchAll (h :: used) rest
    | none => return false

/-- Whether the entries of one store can be matched with those of another, one with one. -/
def sameContents (s other : Store) : Checked Bool :=
  if s.shape ≠ other.shape ∨ s.size ≠ other.size then return false
  else other.matchAll [] (s.toList.map Prod.snd)

end Store
end IndexedStore
