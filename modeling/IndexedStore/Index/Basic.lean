import IndexedStore.Index.AddressGrid
import IndexedStore.Index.GroupHeaps
import IndexedStore.Index.HashChains
import IndexedStore.Index.KeyRows
import IndexedStore.Index.ScanList

/-!
# Indices

One index of any kind. An index is given, with a handle to add or to remove, the version of the
entry the handle is placed under.
-/
namespace IndexedStore

inductive Index where
  | list (index : ScanList)
  | hash (index : HashChains)
  | tree (index : KeyRows)
  | array (index : AddressGrid)
  | heap (index : GroupHeaps)
  deriving DecidableEq, Repr

namespace Index

def ofDescriptor (d : Descriptor) (shape : Shape) : Except Error Index := do
  let projection ← Projection.onPositions shape d.fields d.kind.comparison
  return match d.form with
    | .list _ => .list (.empty projection)
    | .hash _ unique => .hash (.empty projection unique)
    | .tree _ unique => .tree (.empty projection unique)
    | .array axes => .array (.empty projection axes)
    | .heap order _ target => .heap (.empty projection target order)

def kind : Index → IndexKind
  | .list _ => .list
  | .hash _ => .hash
  | .tree _ => .tree
  | .array _ => .array
  | .heap i => .heap i.order

def isUnique : Index → Bool
  | .hash i => i.unique
  | .tree i => i.unique
  | .array _ => true
  | .list _ | .heap _ => false

def projection : Index → Projection
  | .list i => i.projection
  | .hash i => i.projection
  | .tree i => i.projection
  | .array i => i.projection
  | .heap i => i.projection

def tally : Index → Tally
  | .list i => i.tally
  | .hash i => i.tally
  | .tree i => i.tally
  | .array i => i.tally
  | .heap i => i.tally

def size : Index → Nat
  | .list i => i.handles.length
  | .heap i => i.places.length
  | i => i.tally.entries

def handles : Index → List Handle
  | .list i => i.handles
  | .hash i => i.handles
  | .tree i => i.handles
  | .array i => i.handles
  | .heap i => i.handles

def add (source : Source) (h : Handle) (e : Entry) : Index → Checked (Except Rejection Index)
  | .list i => return .ok (.list (i.add h))
  | .hash i => return (← i.add source h e).map .hash
  | .tree i => return (← i.add h e).map .tree
  | .array i => return (← i.add h e).map .array
  | .heap i => return .ok (.heap (← i.add h e))

/-- An addition in place: why the entry was refused, if it was, and the index that is left. Only a
tree writes anything before it can refuse. -/
def addInPlace (source : Source) (h : Handle) (e : Entry) :
    Index → Checked (Option Rejection × Index)
  | .tree i => do
    let (refusal, left) ← i.addInPlace h e
    return (refusal, .tree left)
  | i => do
    match ← i.add source h e with
    | .ok taken => return (none, taken)
    | .error why => return (some why, i)

/-- The index without a handle placed under the key of an entry; none if it is not there. -/
def remove? (h : Handle) (e : Entry) : Index → Checked (Option Index)
  | .list i => return (i.remove? h).map .list
  | .hash i => return (← i.remove? h e).map .hash
  | .tree i => return (← i.remove? h e).map .tree
  | .array i => return (← i.remove? h e).map .array
  | .heap i => return (← i.remove? h e).map .heap

/-- The index without a handle, whether it held it or not. -/
def remove (h : Handle) (e : Entry) (i : Index) : Checked Index := do
  return (← i.remove? h e).getD i

def isAffected (before after : Entry) : Index → Checked Bool
  | .list _ => return false
  | .heap i => i.isAffected before after
  | i => i.projection.changed before after

def get (source : Source) (probe : Entry) : Index → Checked (Option Handle)
  | .list i => i.get source probe
  | .hash i => i.get source probe
  | .tree i => i.first probe
  | .array i => i.get source probe
  | .heap i => i.peek probe

def slice (source : Source) (probe : Entry) : Index → Checked (List Handle)
  | .list i => i.slice source probe
  | .hash i => i.slice source probe
  | .tree i => i.slice probe
  | .array i => i.slice source probe
  | .heap i => i.slice probe

def clear : Index → Index
  | .list i => .list i.clear
  | .hash i => .hash i.clear
  | .tree i => .tree i.clear
  | .array i => .array i.clear
  | .heap i => .heap i.clear

end Index
end IndexedStore
