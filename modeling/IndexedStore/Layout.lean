import IndexedStore.Store.Grow

/-!
# Layout plans

A plan for the indices of a store: the primary index comes first, the secondary ones follow in the
order they are named, and each heap comes last, after a hash index on its group.
-/
namespace IndexedStore

structure LayoutPlan where
  primary : Option Descriptor
  secondary : List Descriptor
  heaps : List (Direction × List Nat × Nat)
  deriving DecidableEq, Repr

namespace LayoutPlan

def empty : LayoutPlan := ⟨none, [], []⟩

def ofLayout : List Descriptor → LayoutPlan
  | [] => empty
  | primary :: secondary => ⟨some primary, secondary, []⟩

def withPrimary (p : LayoutPlan) (d : Descriptor) : LayoutPlan := { p with primary := some d }

def withIndex (p : LayoutPlan) (d : Descriptor) : LayoutPlan :=
  { p with secondary := p.secondary ++ [d] }

def withHeap (p : LayoutPlan) (order : Direction) (group : List Nat) (target : Nat) : LayoutPlan :=
  { p with heaps := p.heaps ++ [(order, group, target)] }

def addHeap (layout : List Descriptor) : Direction × List Nat × Nat → List Descriptor
  | (order, group, target) => layout ++ Store.heapLayout layout order group target

def descriptors (p : LayoutPlan) : Except Error (List Descriptor) :=
  match p.primary with
  | some primary => .ok (p.heaps.foldl addHeap (primary :: p.secondary))
  | none => .error (.invalidDescriptor .noPrimary)

end LayoutPlan
end IndexedStore
