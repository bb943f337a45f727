import IndexedStore.Handle
import IndexedStore.Projection

/-!
# Sources

An index holds handles and no entries. What stands behind a handle it asks of a source.
-/
namespace IndexedStore

abbrev Source := Handle → Option Entry

/-- A plain list of entries, found by the slot of a handle in any generation. -/
def Source.ofList (entries : List Entry) : Source := fun h => entries[h.slot.toNat]?

namespace Projection

/-- Whether a handle leads to an entry with the key of a probe, up to wildcards. -/
def reaches (π : Projection) (source : Source) (probe : Entry) (h : Handle) : Checked Bool :=
  match source h with
  | some e => π.agrees probe e
  | none => return false

/-- Whether a handle leads to an entry with the key of the given one, sentinels included. -/
def clashes (π : Projection) (source : Source) (entry : Entry) (h : Handle) : Checked Bool :=
  match source h with
  | some e => π.sameKey entry e
  | none => return false

end Projection
end IndexedStore
