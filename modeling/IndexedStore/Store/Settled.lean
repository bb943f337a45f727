import IndexedStore.Index.Settled
import IndexedStore.Store.Change
import IndexedStore.Store.Grow
import IndexedStore.Value.Tagged

/-!
# Settled answers of a store

The order of hash chains is not part of what a store promises, but it decides in which order a later
index is filled and a partial lookup changes entries. A settled store marks the indices whose order
may hang on it, and gives answers that do not: what a marked index or a hash index met with a
partial probe finds comes in handle order, then for heaps and trees by key.
-/
namespace IndexedStore

structure SettledStore where
  store : Store
  /-- For each index, whether the order of its handles may hang on the order of hash chains. -/
  mixed : List Bool
  deriving DecidableEq, Repr

namespace SettledStore

def ofStore (s : Store) : SettledStore := ⟨s, s.indices.map fun _ => false⟩

def openProbe (s : SettledStore) : Entry := .blank s.store.shape

def isMixed (s : SettledStore) (slot : Nat) : Bool := s.mixed.getD slot false

def isLoose (s : SettledStore) (slot : Nat) (probe : Entry) : Checked Bool := do
  let index := (← s.store.declared slot).index
  if s.isMixed slot && index.kind ≠ .array then return true
  index.isLoose probe

/-- Sorts entries by their key, those of one key as they stand. -/
def sortByKey (π : Projection) (hits : List (Handle × Entry)) :
    Checked (List (Handle × Entry)) := do
  let keyed ← hits.mapM fun hit => return (← π.project hit.2, hit)
  return (keyed.mergeSort fun a b => (Key.compare a.1 b.1).isLE).map Prod.snd

/-- Brings what an index found into an order that does not hang on hash chains. -/
def settle (s : SettledStore) (slot : Nat) (loose : Bool) (hits : List (Handle × Entry)) :
    Checked (List (Handle × Entry)) := do
  let index := (← s.store.declared slot).index
  let hits := if loose then hits.mergeSort fun a b => (a.1.compare b.1).isLE else hits
  if index.kind.isHeap || (index.kind = .tree && s.isMixed slot) then
    sortByKey index.projection hits
  else return hits

def slice (s : SettledStore) (slot : Nat) (probe : Entry) : Checked (List (Handle × Entry)) := do
  let hits ← s.store.slice slot probe
  s.settle slot (← s.isLoose slot probe) hits

def toList (s : SettledStore) : Checked (List (Handle × Entry)) := do
  s.settle 0 (← s.isLoose 0 s.openProbe) s.store.toList

def range (s : SettledStore) (slot : Nat) (range : KeyRange Entry) :
    Checked (Except Error (List (Handle × Entry))) := do
  match ← s.store.range slot range with
  | .ok hits => return .ok (← s.settle slot (s.isMixed slot) hits)
  | .error e => return .error e

/-- Whether a lookup for one entry has to allow for several matches in no particular order. -/
def mayBeAmbiguous (s : SettledStore) (slot : Nat) (probe : Entry) : Checked Bool := do
  let index := (← s.store.declared slot).index
  if index.kind.isHeap then return false
  s.isLoose slot probe

def getHandle (s : SettledStore) (slot : Nat) (probe : Entry) : Checked (Found Handle) := do
  let hit ← s.store.getHandle slot probe
  if ← s.mayBeAmbiguous slot probe then
    return .among ((← s.store.slice slot probe).map Prod.fst) hit
  return .hit hit

def foundEntry (s : SettledStore) (slot : Nat) (probe : Entry) (hit : Option Entry) :
    Checked (Found Entry) := do
  if ← s.mayBeAmbiguous slot probe then
    return .among ((← s.store.slice slot probe).map Prod.snd) hit
  return .hit hit

def get (s : SettledStore) (slot : Nat) (probe : Entry) : Checked (Found Entry) := do
  s.foundEntry slot probe (← s.store.get slot probe)

def endmost (s : SettledStore) (direction : Direction) (slot : Nat) (probe : Entry) :
    Checked (Except Error (Found Entry)) := do
  let hit ← match direction with
    | .ascending => s.store.first slot probe
    | .descending => s.store.last slot probe
  match hit with
  | .ok hit => return .ok (← s.foundEntry slot probe hit)
  | .error e => return .error e

/-- Deletes the first entry that a probe reaches through an index, unless it is ambiguous. -/
def deleteByKey (s : SettledStore) (slot : Nat) (probe : Entry) :
    Checked (Found Entry × SettledStore) := do
  match ← s.get slot probe with
  | .ambiguous count member => return (.ambiguous count member, s)
  | .hit _ =>
    let (removed, store) ← s.store.deleteByKey slot probe
    return (.hit removed, { s with store })

/-- Updates every entry that a probe reaches. If they are met in no particular order, so is from
then on what they change. -/
def sliceUpdate {σ : Type} (s : SettledStore) (slot : Nat) (probe : Entry) (state : σ)
    (mutate : σ → Entry → Checked (Entry × σ)) :
    Checked (Except Error (Nat × σ) × SettledStore) := do
  let hits ← s.store.slice slot probe
  let index := (← s.store.declared slot).index
  let unordered := index.kind.isHeap || ((← s.isLoose slot probe) && 1 < hits.length)
  let (answer, store) ← s.store.sliceUpdate slot probe state mutate
  return (answer, ⟨store, if unordered then s.mixed.map fun _ => true else s.mixed⟩)

def grown (s : SettledStore) (store : Store) : Checked SettledStore := do
  let mark := 1 < s.store.size && (← s.isLoose 0 s.openProbe)
  return ⟨store, s.mixed ++ (store.indices.drop s.store.indices.length).map fun _ => mark⟩

def addIndex (s : SettledStore) (d : Descriptor) : Checked (Except Error (Nat × SettledStore)) := do
  match ← s.store.addIndex d with
  | .ok (slot, store) => return .ok (slot, ← s.grown store)
  | .error e => return .error e

def extreme (s : SettledStore) (order : Direction) (probe : Entry) (group : List Nat)
    (target : Nat) : Checked (Except Error (Option Entry) × SettledStore) := do
  let (answer, store) ← s.store.extreme order probe group target
  return (answer, ← s.grown store)

def clear (s : SettledStore) : SettledStore := .ofStore s.store.clear

def compareTagged (a b : Entry) : Ordering :=
  List.compareLex Ord.compare (a.values.map Value.encode) (b.values.map Value.encode)

def drain (s : SettledStore) : Checked (List Entry × SettledStore) := do
  let loose ← s.isLoose 0 s.openProbe
  let (entries, store) ← s.store.drain
  let entries := if loose then entries.mergeSort fun a b => (compareTagged a b).isLE else entries
  return (entries, .ofStore store)

end SettledStore
end IndexedStore
