import IndexedStore.Index.Source
import IndexedStore.KeyRange
import IndexedStore.OrderedTable
import IndexedStore.Tally

/-!
# Key rows

Handles under their keys, keys in ascending order, handles of one key in order of arrival. A probe
whose leading fields are set seeks the first row with that lead and walks on while the lead lasts.
A stored key with an unset field sorts away from the keys it agrees with; while there is one, a
probe with an unset field walks all rows.
-/
namespace IndexedStore

structure KeyRows where
  projection : Projection
  unique : Bool
  /-- Rows in key order; none is without a handle. -/
  rows : List (Key × List Handle)
  /-- How many rows have an unset field in their key. -/
  partialRows : Nat
  tally : Tally
  deriving DecidableEq, Repr

namespace KeyRows

def empty (projection : Projection) (unique : Bool) : KeyRows := ⟨projection, unique, [], 0, .zero⟩

def row (r : KeyRows) (key : Key) : List Handle :=
  (OrderedTable.find? Key.compare key r.rows).getD []

def handles (r : KeyRows) : List Handle := r.rows.flatMap Prod.snd

def push (r : KeyRows) (key : Key) (h : Handle) : KeyRows :=
  let fresh := (r.row key).isEmpty
  { r with
    rows := OrderedTable.put Key.compare key (r.row key ++ [h]) r.rows
    partialRows := if fresh && key.isPartial then r.partialRows + 1 else r.partialRows
    tally := (if fresh then r.tally.addKey else r.tally).addEntry }

def add (r : KeyRows) (h : Handle) (e : Entry) : Checked (Except Rejection KeyRows) := do
  let key ← r.projection.project e
  if r.unique then
    if let some holder := (r.row key).find? (· ≠ h) then
      return .error (.duplicateKey holder)
  return .ok (r.push key h)

/-- The rows with one for a key; a new one has no handles yet. -/
def opened (r : KeyRows) (key : Key) : KeyRows :=
  { r with rows := OrderedTable.alter Key.compare key (fun row => some (row.getD [])) r.rows }

/-- An addition in place, which opens the row of the key before it looks who is there. Tells why it
refused the entry, if it did, and what it left behind. -/
def addInPlace (r : KeyRows) (h : Handle) (e : Entry) : Checked (Option Rejection × KeyRows) := do
  let key ← r.projection.project e
  let r := r.opened key
  if r.unique then
    if let some holder := (r.row key).find? (· ≠ h) then
      return (some (.duplicateKey holder), r)
  return (none, r.push key h)

def remove? (r : KeyRows) (h : Handle) (e : Entry) : Checked (Option KeyRows) := do
  let key ← r.projection.project e
  if h ∉ r.row key then return none
  let rest := (r.row key).erase h
  let partialRows ←
    if rest.isEmpty && key.isPartial then decrement r.partialRows else pure r.partialRows
  return some { r with
    rows := OrderedTable.alter Key.compare key
      (fun _ => if rest.isEmpty then none else some rest) r.rows
    partialRows
    tally := (if rest.isEmpty then r.tally.removeKey else r.tally).removeEntry }

def startingAt (r : KeyRows) (key : Key) : List (Key × List Handle) :=
  r.rows.dropWhile fun (k, _) => (Key.compare k key).isLT

/-- The least key with the first `n` values of a key: the sentinel comes first in its type. -/
def leastWithLead (n : Nat) (key : Key) : Key :=
  key.take n ++ (key.drop n).map fun v => .unset v.type

def leading (n : Nat) (key : Key) : List (Key × List Handle) → Checked (List (Key × List Handle))
  | [] => return []
  | row :: rest => do
    if (Key.compareSet (← row.1.lead n) (← key.lead n)).isEq then
      return row :: (← leading n key rest)
    else return []

def withLead (r : KeyRows) (n : Nat) (key : Key) : Checked (List (Key × List Handle)) :=
  leading n key (r.startingAt (leastWithLead n key))

def reached (r : KeyRows) (probe : Key) : Checked (List (List Handle)) := do
  if !probe.isPartial then return (OrderedTable.find? Key.compare probe r.rows).toList
  let lead := probe.leadLength
  let rows ← if lead = 0 ∨ 0 < r.partialRows then pure r.rows else r.withLead lead probe
  return (rows.filter fun (k, _) => probe.agrees k).map Prod.snd

def first (r : KeyRows) (probe : Entry) : Checked (Option Handle) := do
  let key ← r.projection.project probe
  return (← r.reached key).head?.bind List.head?

/-- The last handle that a probe reaches. Without a lead to seek, the walk starts at the last row. -/
def last (r : KeyRows) (probe : Entry) : Checked (Option Handle) := do
  let key ← r.projection.project probe
  if key.leadLength = 0 then
    return (r.rows.reverse.find? fun (k, _) => key.agrees k).bind fun (_, hs) => hs.getLast?
  return (← r.reached key).getLast?.bind List.getLast?

def slice (r : KeyRows) (probe : Entry) : Checked (List Handle) := do
  return (← r.reached (← r.projection.project probe)).flatten

/-- The handles under the keys inside a range, in key order. A bound compares by its set fields. -/
def range (r : KeyRows) (range : KeyRange Key) : List Handle :=
  let start := match range.lower.key? with
    | some key => r.startingAt key
    | none => r.rows
  let above := start.filter fun (k, _) => range.lower.admitsAbove Key.compareSet k
  let inside := above.takeWhile fun (k, _) => range.upper.admitsBelow Key.compareSet k
  inside.flatMap Prod.snd

def clear (r : KeyRows) : KeyRows := { r with rows := [], partialRows := 0, tally := r.tally.clear }

end KeyRows
end IndexedStore
