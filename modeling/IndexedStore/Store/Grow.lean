import IndexedStore.Store.Basic

/-!
# Further indices

A store takes further indices while it holds entries. A heap that a lookup asks for is declared on
first use, after a hash index on its group.
-/
namespace IndexedStore.Store

/-- Places entries one by one in the index at a slot, up to the first that it does not take. -/
def fill (source : Source) (slot : Nat) :
    List (Handle × Entry) → Declared → Checked (Except Error Declared)
  | [], d => return .ok d
  | (h, e) :: rest, d => do
    match ← d.index.add source h e with
    | .ok index => fill source slot rest { d with index }
    | .error why => return .error (← d.error slot e why)

def nextIndex (s : Store) (d : Descriptor) : Except Error Index := do
  d.validate s.shape s.indices.length s.descriptors
  Index.ofDescriptor d s.shape

def addIndex (s : Store) (d : Descriptor) : Checked (Except Error (Nat × Store)) := do
  let slot := s.indices.length
  match s.nextIndex d with
  | .error e => return .error e
  | .ok index =>
    match ← fill s.source slot s.toList ⟨d, index⟩ with
    | .ok filled => return .ok (slot, { s with indices := s.indices ++ [filled] })
    | .error e => return .error e

/-- The descriptors to add for a heap on a group: a hash index on the group if there is none yet,
then the heap. -/
def heapLayout (layout : List Descriptor) (order : Direction) (group : List Nat) (target : Nat) :
    List Descriptor :=
  let heap := Descriptor.ofForm (.heap order group target)
  match layout.findIdx? (·.isHashOn group) with
  | some slot => [heap.withPartition slot]
  | none => [.ofForm (.hash group false), heap.withPartition layout.length]

/-- Adds indices one by one, up to the first that is refused. Those before it stay. -/
def addIndices : List Descriptor → Store → Checked (Except Error Unit × Store)
  | [], s => return (.ok (), s)
  | d :: rest, s => do
    match ← s.addIndex d with
    | .ok (_, s) => addIndices rest s
    | .error e => return (.error e, s)

def checkHeap (s : Store) (order : Direction) (group : List Nat) (target : Nat) :
    Except Error Unit :=
  let added := heapLayout s.descriptors order group target
  let layout := s.descriptors ++ added.dropLast
  match added.getLast? with
  | some heap => heap.validate s.shape layout.length layout
  | none => .ok ()

/-- Declares a heap that is not there yet. The heap is checked before anything is added. -/
def addHeap (s : Store) (order : Direction) (group : List Nat) (target : Nat) :
    Checked (Except Error Unit × Store) :=
  match s.checkHeap order group target with
  | .error e => return (.error e, s)
  | .ok () => addIndices (heapLayout s.descriptors order group target) s

/-- The foremost entry of a group; a heap for it is declared on first use. -/
def extreme (s : Store) (order : Direction) (probe : Entry) (group : List Nat) (target : Nat) :
    Checked (Except Error (Option Entry) × Store) := do
  match s.findHeap? order group target with
  | some slot => return (.ok (← s.get slot probe), s)
  | none =>
    match ← s.addHeap order group target with
    | (.ok (), s) => return (.ok (← s.peek order probe group target), s)
    | (.error e, s) => return (.error e, s)

end IndexedStore.Store
