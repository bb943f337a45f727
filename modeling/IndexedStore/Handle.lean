/-!
# Handles

A handle names an entry held by a store: a slot, and the generation of the slot it was issued for.
Slots are reused under a new generation, so an old handle does not reach a new entry.
-/
namespace IndexedStore

structure Handle where
  slot : UInt32
  generation : UInt32
  deriving DecidableEq, Repr

namespace Handle

def compare (a b : Handle) : Ordering :=
  (Ord.compare a.slot b.slot).then (Ord.compare a.generation b.generation)

instance : Std.TransCmp compare :=
  inferInstanceAs (Std.TransCmp (compareLex (compareOn slot) (compareOn generation)))

instance : Std.LawfulEqCmp compare where
  eq_of_compare {a b} h := by
    cases a
    cases b
    simp_all [compare, Ordering.then_eq_eq]

def text (h : Handle) : String :=
  "#" ++ toString h.slot.toNat ++ "v" ++ toString h.generation.toNat

end Handle
end IndexedStore
