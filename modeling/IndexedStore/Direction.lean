/-!
# Directions

Which end of an order comes first.
-/
namespace IndexedStore

inductive Direction where
  | ascending | descending
  deriving DecidableEq, Repr

namespace Direction

def apply (d : Direction) (o : Ordering) : Ordering :=
  match d with
  | .ascending => o
  | .descending => o.swap

def label : Direction → String
  | .ascending => "Asc"
  | .descending => "Desc"

end Direction
end IndexedStore
