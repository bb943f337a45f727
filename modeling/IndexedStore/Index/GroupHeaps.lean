import IndexedStore.Index.Heap
import IndexedStore.Index.Source
import IndexedStore.Tally

/-!
# Group heaps

A heap for each group of entries with one group key, ordered on a target field: the root of a group
is its least item in the order of the index. Groups stand in buckets by the hash of their key.
-/
namespace IndexedStore

structure Group where
  key : Key
  items : Array Item
  deriving DecidableEq, Repr

structure GroupHeaps where
  /-- The projection on the group key. -/
  projection : Projection
  /-- The position of the field the heaps are ordered by. -/
  target : Nat
  order : Direction
  /-- Groups under the hash of their key; no bucket and no group is empty. -/
  buckets : List (UInt32 × List Group)
  /-- The position of every handle in the array of its group. -/
  places : Places
  tally : Tally
  deriving DecidableEq, Repr

namespace GroupHeaps

def empty (projection : Projection) (target : Nat) (order : Direction) : GroupHeaps :=
  ⟨projection, target, order, [], [], .zero⟩

def bucket (g : GroupHeaps) (hash : UInt32) : List Group :=
  (OrderedTable.find? Ord.compare hash g.buckets).getD []

def groups (g : GroupHeaps) : List Group := g.buckets.flatMap Prod.snd

def handles (g : GroupHeaps) : List Handle :=
  g.groups.flatMap fun group => group.items.toList.map Item.handle

/-- Replaces the group of a key in a bucket. A group without items is left out, and the last group
of the bucket takes its place. -/
def putGroup (key : Key) (items : Array Item) : List Group → List Group
  | [] => if items.isEmpty then [] else [⟨key, items⟩]
  | group :: rest =>
    if Key.same key group.key then
      if items.isEmpty then rest.getLast?.toList ++ rest.dropLast else { group with items } :: rest
    else group :: putGroup key items rest

def withGroup (g : GroupHeaps) (key : Key) (items : Array Item) : GroupHeaps :=
  { g with
    buckets := OrderedTable.alter Ord.compare key.hash
      (fun bucket =>
        let bucket := putGroup key items (bucket.getD [])
        if bucket.isEmpty then none else some bucket) g.buckets }

/-- The group with exactly a given key, sentinels included. -/
def group? (g : GroupHeaps) (key : Key) : Option Group :=
  (g.bucket key.hash).find? fun group => Key.same key group.key

def reached (g : GroupHeaps) (probe : Key) : List Group :=
  g.groups.filter fun group => probe.agrees group.key

def push (g : GroupHeaps) (key : Key) (item : Item) : GroupHeaps :=
  let items := match g.group? key with
    | some group => group.items
    | none => #[]
  let (items, places) := Heap.push g.order items g.places item
  { g.withGroup key items with
    places
    tally := (if (g.group? key).isNone then g.tally.addKey else g.tally).addEntry }

def add (g : GroupHeaps) (h : Handle) (e : Entry) : Checked GroupHeaps := do
  let key ← g.projection.project e
  return g.push key ⟨← e.get g.target, h⟩

def remove? (g : GroupHeaps) (h : Handle) (e : Entry) : Checked (Option GroupHeaps) := do
  let key ← g.projection.project e
  return do
    let group ← g.group? key
    let place ← OrderedTable.find? Handle.compare h g.places
    let item ← group.items[place]?
    if item.handle ≠ h then none
    let (items, places) :=
      Heap.removeAt g.order group.items (OrderedTable.erase Handle.compare h g.places) place
    some { g.withGroup key items with
      places
      tally := (if items.isEmpty then g.tally.removeKey else g.tally).removeEntry }

def isAffected (g : GroupHeaps) (before after : Entry) : Checked Bool := do
  if ← g.projection.changed before after then return true
  return !(← before.get g.target).same (← after.get g.target)

/-- The root of the group of a probe; the foremost root of all groups that a probe with an unset
group field reaches. -/
def peek (g : GroupHeaps) (probe : Entry) : Checked (Option Handle) := do
  let key ← g.projection.project probe
  let groups := if key.isPartial then g.reached key else (g.group? key).toList
  return (Item.first? g.order (groups.filterMap fun group => group.items[0]?)).map Item.handle

def slice (g : GroupHeaps) (probe : Entry) : Checked (List Handle) := do
  let key ← g.projection.project probe
  return (g.reached key).flatMap fun group => group.items.toList.map Item.handle

def clear (g : GroupHeaps) : GroupHeaps :=
  { g with buckets := [], places := [], tally := g.tally.clear }

end GroupHeaps
end IndexedStore
