import IndexedStore.Index.Basic

/-!
# Settled answers of an index

The order of hash chains, and of the groups of a heap, is not part of what an index promises. The
answers here do not depend on it: handles that it would order come in handle order, and a lookup for
one handle among several says that it is ambiguous.
-/
namespace IndexedStore

namespace Handle

def sort (hs : List Handle) : List Handle := hs.mergeSort fun a b => (a.compare b).isLE

end Handle

inductive Found (α : Type) where
  /-- The item, or none if there is no match. -/
  | hit (item : Option α)
  /-- Several matches in no particular order, and whether the item met first is one of them. -/
  | ambiguous (count : Nat) (member : Bool)
  deriving DecidableEq, Repr

namespace Found

variable {α : Type}

/-- The answer of a lookup that met `item` first among matches in no particular order. -/
def among [BEq α] (hits : List α) (item : Option α) : Found α :=
  if 1 < hits.length then .ambiguous hits.length (item.any hits.contains) else .hit item

end Found

namespace Index

/-- Whether the order of chains decides in which order a probe meets handles. -/
def isLoose (probe : Entry) : Index → Checked Bool
  | .hash i => i.projection.isPartial probe
  | _ => return false

def settledSlice (source : Source) (probe : Entry) (i : Index) : Checked (List Handle) := do
  let hits ← i.slice source probe
  if i.kind.isHeap || (← i.isLoose probe) then return Handle.sort hits
  return hits

def settledGet (source : Source) (probe : Entry) (i : Index) : Checked (Found Handle) := do
  let hit ← i.get source probe
  if ← i.isLoose probe then return .among (← i.slice source probe) hit
  return .hit hit

def settledHandles (i : Index) : List Handle :=
  if i.kind.isHeap || i.kind = .hash then Handle.sort i.handles else i.handles

end Index
end IndexedStore
