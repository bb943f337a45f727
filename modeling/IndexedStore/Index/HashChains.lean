import IndexedStore.Index.Source
import IndexedStore.OrderedTable
import IndexedStore.Tally

/-!
# Hash chains

Handles in chains by the hash of their key, in order of arrival within a chain. Different keys can
share a chain, so a lookup compares the key of every entry it meets. A probe with an unset key field
has no hash and walks all chains.
-/
namespace IndexedStore

structure HashChains where
  projection : Projection
  unique : Bool
  /-- Chains under their hash; none is empty. -/
  chains : List (UInt32 × List Handle)
  tally : Tally
  deriving DecidableEq, Repr

namespace HashChains

def empty (projection : Projection) (unique : Bool) : HashChains := ⟨projection, unique, [], .zero⟩

def chain (c : HashChains) (hash : UInt32) : List Handle :=
  (OrderedTable.find? Ord.compare hash c.chains).getD []

def handles (c : HashChains) : List Handle := c.chains.flatMap Prod.snd

def push (c : HashChains) (hash : UInt32) (h : Handle) : HashChains :=
  { c with
    chains := OrderedTable.put Ord.compare hash (c.chain hash ++ [h]) c.chains
    tally := (if (c.chain hash).isEmpty then c.tally.addKey else c.tally).addEntry }

def add (c : HashChains) (source : Source) (h : Handle) (e : Entry) :
    Checked (Except Rejection HashChains) := do
  let hash ← c.projection.hash e
  if c.unique then
    let others := (c.chain hash).filter (· ≠ h)
    if let some holder ← others.findM? (c.projection.clashes source e) then
      return .error (.duplicateKey holder)
  return .ok (c.push hash h)

def remove? (c : HashChains) (h : Handle) (e : Entry) : Checked (Option HashChains) := do
  let hash ← c.projection.hash e
  if h ∉ c.chain hash then return none
  let rest := (c.chain hash).erase h
  return some { c with
    chains := OrderedTable.alter Ord.compare hash
      (fun _ => if rest.isEmpty then none else some rest) c.chains
    tally := (if rest.isEmpty then c.tally.removeKey else c.tally).removeEntry }

def candidates (c : HashChains) (probe : Entry) : Checked (List Handle) := do
  if ← c.projection.isPartial probe then return c.handles
  return c.chain (← c.projection.hash probe)

def get (c : HashChains) (source : Source) (probe : Entry) : Checked (Option Handle) := do
  (← c.candidates probe).findM? (c.projection.reaches source probe)

def slice (c : HashChains) (source : Source) (probe : Entry) : Checked (List Handle) := do
  keep (c.projection.reaches source probe) (← c.candidates probe)

def clear (c : HashChains) : HashChains := { c with chains := [], tally := c.tally.clear }

end HashChains
end IndexedStore
