import IndexedStore.Index.Basic
import IndexedStore.Slab

/-!
# Stores

Entries of one shape under a list of indices. The index at slot 0 is the primary one. Every index
holds every handle of the store, placed under the entry the handle reaches: an operation that adds,
changes or deletes an entry takes effect in all indices or in none.
-/
namespace IndexedStore

structure Declared where
  descriptor : Descriptor
  index : Index
  deriving DecidableEq, Repr

namespace Declared

/-- The key of an entry as an error reports it; all its values, if no field is listed. -/
def reportedKey (d : Declared) (e : Entry) : Checked (List Value) :=
  if d.descriptor.fields.isEmpty then return e.values
  else d.descriptor.fields.mapM e.get

def error (d : Declared) (slot : Nat) (e : Entry) (why : Rejection) : Checked Error := do
  let key ← d.reportedKey e
  return match why with
    | .duplicateKey _ => .duplicateKey slot key
    | .outOfBounds => .keyOutOfBounds slot key

end Declared

structure Store where
  shape : Shape
  indices : List Declared
  slab : Slab Entry
  deriving DecidableEq, Repr

namespace Store

/-- Builds the indices of some descriptors one by one, after checking each against those before. -/
def declareAll (shape : Shape) (earlier : List Descriptor) :
    List Descriptor → Except Error (List Declared)
  | [] => .ok []
  | d :: rest => do
    d.validate shape earlier.length earlier
    let index ← Index.ofDescriptor d shape
    return ⟨d, index⟩ :: (← declareAll shape (earlier ++ [d]) rest)

def create (shape : Shape) (descriptors : List Descriptor) : Except Error Store :=
  if descriptors.isEmpty then .error (.invalidDescriptor .noPrimary)
  else do return ⟨shape, ← declareAll shape [] descriptors, .empty⟩

def size (s : Store) : Nat := s.slab.size

def descriptors (s : Store) : List Descriptor := s.indices.map Declared.descriptor

def source (s : Store) : Source := s.slab.get?

/-- All handles, in the order of the primary index. -/
def handles (s : Store) : List Handle :=
  match s.indices with
  | primary :: _ => primary.index.handles
  | [] => []

def entry? (s : Store) (h : Handle) : Option Entry := s.slab.get? h

def contains (s : Store) (h : Handle) : Bool := s.slab.contains h

def resolve (s : Store) (hs : List Handle) : List (Handle × Entry) :=
  hs.filterMap fun h => s.entry? h |>.map (h, ·)

def toList (s : Store) : List (Handle × Entry) := s.resolve s.handles

def declared (s : Store) (slot : Nat) : Checked Declared := itemAt s.indices slot

def checkKey (s : Store) (key : Entry) : Checked Unit :=
  if key.shape = s.shape then .ok () else .error (.foreignKey key.shape s.shape)

def getHandle (s : Store) (slot : Nat) (probe : Entry) : Checked (Option Handle) := do
  s.checkKey probe
  (← s.declared slot).index.get s.source probe

def get (s : Store) (slot : Nat) (probe : Entry) : Checked (Option Entry) := do
  return (← s.getHandle slot probe).bind s.entry?

def slice (s : Store) (slot : Nat) (probe : Entry) : Checked (List (Handle × Entry)) := do
  s.checkKey probe
  return s.resolve (← (← s.declared slot).index.slice s.source probe)

def tree (s : Store) (slot : Nat) : Checked (Except Error KeyRows) := do
  let d ← s.declared slot
  return match d.index with
    | .tree rows => .ok rows
    | _ => .error (.invalidDescriptor (.notTree slot d.descriptor.kind))

def first (s : Store) (slot : Nat) (probe : Entry) : Checked (Except Error (Option Entry)) := do
  s.checkKey probe
  match ← s.tree slot with
  | .ok rows => return .ok ((← rows.first probe).bind s.entry?)
  | .error e => return .error e

def last (s : Store) (slot : Nat) (probe : Entry) : Checked (Except Error (Option Entry)) := do
  s.checkKey probe
  match ← s.tree slot with
  | .ok rows => return .ok ((← rows.last probe).bind s.entry?)
  | .error e => return .error e

def range (s : Store) (slot : Nat) (range : KeyRange Entry) :
    Checked (Except Error (List (Handle × Entry))) := do
  match ← s.tree slot with
  | .ok rows => return .ok (s.resolve (rows.range (← range.mapM rows.projection.project)))
  | .error e => return .error e

def findIndex? (s : Store) (kind : IndexKind) (fields : List Nat) : Option Nat :=
  s.descriptors.findIdx? fun d => d.kind = kind ∧ d.fields = fields

def findHeap? (s : Store) (order : Direction) (group : List Nat) (target : Nat) : Option Nat :=
  s.descriptors.findIdx? fun d =>
    d.kind = .heap order ∧ d.fields = group ∧ d.target? = some target

/-- The foremost entry of a group, if there is a heap for it. -/
def peek (s : Store) (order : Direction) (probe : Entry) (group : List Nat) (target : Nat) :
    Checked (Option Entry) :=
  match s.findHeap? order group target with
  | some slot => s.get slot probe
  | none => return none

end Store
end IndexedStore
