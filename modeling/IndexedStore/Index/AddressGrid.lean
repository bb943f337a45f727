import IndexedStore.Descriptor
import IndexedStore.Index.Source
import IndexedStore.OrderedTable
import IndexedStore.Tally

/-!
# Address grids

One handle at most for each tuple of integers inside given bounds. The key gives the address of its
slot in mixed radix: each field counts from its low bound, in as many steps as its bounds span.
-/
namespace IndexedStore

structure AddressGrid where
  projection : Projection
  axes : List Axis
  /-- Occupied slots under their addresses. -/
  occupied : List (Nat × Handle)
  tally : Tally
  deriving DecidableEq, Repr

namespace AddressGrid

def empty (projection : Projection) (axes : List Axis) : AddressGrid :=
  ⟨projection, axes, [], .zero⟩

/-- The number of slots. Bounds with too many slots between them leave a grid without any. -/
def capacity (g : AddressGrid) : Nat :=
  match g.axes.mapM Axis.span? with
  | some spans => if spans.foldl (· * ·) 1 ≤ Axis.maxSlots then spans.foldl (· * ·) 1 else 0
  | none => 0

/-- The address after one more field, if the value lies inside its bounds. -/
def advance (address : Nat) (axis : Axis) (v : Value) : Checked (Option Nat) := do
  let some n := v.integral? | return none
  if n < axis.low ∨ axis.high ≤ n then return none
  let before ← productOf address (← differenceOf axis.high axis.low).toNat
  return some (← sumOf before (← differenceOf n axis.low).toNat)

def addressFrom (e : Entry) (address : Nat) : List (Nat × Axis) → Checked (Option Nat)
  | [] => return some address
  | (position, axis) :: rest => do
    match ← advance address axis (← e.get position) with
    | some address => addressFrom e address rest
    | none => return none

/-- The address of an entry's key; none if the key is not inside the bounds. -/
def address? (g : AddressGrid) (e : Entry) : Checked (Option Nat) :=
  if g.capacity = 0 then return none
  else addressFrom e 0 (g.projection.positions.zip g.axes)

def holder? (g : AddressGrid) (address : Nat) : Option Handle :=
  OrderedTable.find? Ord.compare address g.occupied

def slotAt (g : AddressGrid) (address : Nat) : Checked (Option Handle) :=
  if address < g.capacity then .ok (g.holder? address)
  else .error (.outOfBounds g.capacity address)

def handles (g : AddressGrid) : List Handle := g.occupied.map Prod.snd

def add (g : AddressGrid) (h : Handle) (e : Entry) : Checked (Except Rejection AddressGrid) := do
  match ← g.address? e with
  | none => return .error .outOfBounds
  | some address =>
    match ← g.slotAt address with
    | some holder => return if holder = h then .ok g else .error (.duplicateKey holder)
    | none => return .ok { g with
        occupied := OrderedTable.put Ord.compare address h g.occupied
        tally := g.tally.addEntry.addKey }

def remove? (g : AddressGrid) (h : Handle) (e : Entry) : Checked (Option AddressGrid) := do
  match ← g.address? e with
  | none => return none
  | some address =>
    if (← g.slotAt address) ≠ some h then return none
    return some { g with
      occupied := OrderedTable.erase Ord.compare address g.occupied
      tally := g.tally.removeEntry.removeKey }

def lookup (g : AddressGrid) (probe : Entry) : Checked (Option Handle) := do
  match ← g.address? probe with
  | none => return none
  | some address => g.slotAt address

def get (g : AddressGrid) (source : Source) (probe : Entry) : Checked (Option Handle) := do
  if ← g.projection.isPartial probe then g.handles.findM? (g.projection.reaches source probe)
  else g.lookup probe

def slice (g : AddressGrid) (source : Source) (probe : Entry) : Checked (List Handle) := do
  if ← g.projection.isPartial probe then keep (g.projection.reaches source probe) g.handles
  else return (← g.lookup probe).toList

def clear (g : AddressGrid) : AddressGrid := { g with occupied := [], tally := g.tally.clear }

end AddressGrid
end IndexedStore
