import IndexedStore.Direction
import IndexedStore.Handle
import IndexedStore.OrderedTable
import IndexedStore.Value.Basic

/-!
# Heaps

Items in an array read as a binary tree: the children of position `i` stand at `2 * i + 1` and
`2 * i + 2`. An item moves up or down by exchange with a neighbour in the tree until it is not
before its parent and no child is before it. Beside the array goes a table of the places of all
handles, patched at every move.
-/
namespace IndexedStore

/-- What a heap orders: a target value and the handle it belongs to. -/
structure Item where
  value : Value
  handle : Handle
  deriving DecidableEq, Repr

namespace Item

/-- By value in a direction, then by handle; the handle ascends either way. -/
def compare (order : Direction) (a b : Item) : Ordering :=
  (order.apply (a.value.compare b.value)).then (a.handle.compare b.handle)

def isBefore (order : Direction) (a b : Item) : Bool := (a.compare order b).isLT

/-- The item that comes first; among equals the earliest in the list. -/
def first? (order : Direction) : List Item → Option Item
  | [] => none
  | item :: rest => some (rest.foldl (fun best x => if x.isBefore order best then x else best) item)

end Item

abbrev Places := List (Handle × Nat)

/-- A heap array at work, with the places of the handles. -/
structure Heap (n : Nat) where
  items : Vector Item n
  places : Places

namespace Heap

variable {n : Nat} (order : Direction)

def settle (heap : Heap n) (i : Fin n) : Heap n :=
  { heap with places := OrderedTable.put Handle.compare heap.items[i].handle i.val heap.places }

/-- Exchanges two items and notes the place of the one that comes to the first position. -/
def exchange (heap : Heap n) (i j : Fin n) : Heap n :=
  settle { heap with items := heap.items.swap i j } i

def parent (i : Fin n) : Fin n := ⟨(i.val - 1) / 2, by omega⟩

/-- Moves the item at a position up while it is before its parent, and tells where it rests. -/
def siftUp (heap : Heap n) (i : Fin n) : Heap n × Fin n :=
  if 0 < i.val ∧ heap.items[i].isBefore order heap.items[parent i] then
    siftUp (heap.exchange i (parent i)) (parent i)
  else (heap.settle i, i)
termination_by i.val
decreasing_by simp only [parent]; omega

/-- Position `j`, if there is one and its item is before the one at `best`. -/
def better (heap : Heap n) (best : Fin n) (j : Nat) : Fin n :=
  if h : j < n then
    if heap.items[j].isBefore order heap.items[best] then ⟨j, h⟩ else best
  else best

def foremost (heap : Heap n) (i : Fin n) : Fin n :=
  heap.better order (heap.better order i (2 * i.val + 1)) (2 * i.val + 2)

theorem foremost_eq_or_gt (heap : Heap n) (i : Fin n) :
    heap.foremost order i = i ∨ i < heap.foremost order i := by
  have step (best : Fin n) (j : Nat) (hj : i.val < j) (hb : best = i ∨ i < best) :
      heap.better order best j = i ∨ i < heap.better order best j := by
    unfold better
    split
    · split
      · exact .inr hj
      · exact hb
    · exact hb
  exact step _ _ (by omega) (step _ _ (by omega) (.inl rfl))

def siftDown (heap : Heap n) (i : Fin n) : Heap n :=
  if heap.foremost order i = i then heap.settle i
  else siftDown (heap.exchange i (heap.foremost order i)) (heap.foremost order i)
termination_by n - i.val
decreasing_by
  have := (heap.foremost_eq_or_gt order i).resolve_left ‹_›
  omega

/-- Brings the item at a position to its place, up or else down. -/
def restore (heap : Heap n) (i : Fin n) : Heap n :=
  let (risen, j) := heap.siftUp order i
  if j = i then risen.siftDown order i else risen

def push (items : Array Item) (places : Places) (item : Item) : Array Item × Places :=
  let heap : Heap (items.push item).size := ⟨(items.push item).toVector, places⟩
  let (heap, _) := heap.siftUp order ⟨items.size, by simp⟩
  (heap.items.toArray, heap.places)

/-- A heap array without the item at a position. The last item takes its place. -/
def removeAt (items : Array Item) (places : Places) (i : Nat) : Array Item × Places :=
  match items.back? with
  | none => (items, places)
  | some last =>
    let rest := (items.setIfInBounds i last).pop
    if h : i < rest.size then
      let heap := restore order ⟨rest.toVector, places⟩ ⟨i, h⟩
      (heap.items.toArray, heap.places)
    else (rest, places)

end Heap
end IndexedStore
