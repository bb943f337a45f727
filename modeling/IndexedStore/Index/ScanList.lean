import IndexedStore.Index.Source
import IndexedStore.Tally

/-!
# Scan lists

Handles in order of arrival. A lookup walks them all.
-/
namespace IndexedStore

structure ScanList where
  projection : Projection
  handles : List Handle
  tally : Tally
  deriving DecidableEq, Repr

namespace ScanList

def empty (projection : Projection) : ScanList := ⟨projection, [], .zero⟩

def add (l : ScanList) (h : Handle) : ScanList :=
  { l with handles := l.handles ++ [h], tally := l.tally.addEntry }

def remove? (l : ScanList) (h : Handle) : Option ScanList :=
  if h ∈ l.handles then
    some { l with handles := l.handles.erase h, tally := l.tally.removeEntry }
  else none

def get (l : ScanList) (source : Source) (probe : Entry) : Checked (Option Handle) :=
  l.handles.findM? (l.projection.reaches source probe)

def slice (l : ScanList) (source : Source) (probe : Entry) : Checked (List Handle) :=
  keep (l.projection.reaches source probe) l.handles

def clear (l : ScanList) : ScanList := { l with handles := [], tally := l.tally.clear }

end ScanList
end IndexedStore
