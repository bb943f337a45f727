import IndexedStore.Store.Basic

/-!
# Changes to a store

Insertion, update and deletion. A change that some unique or bounded index does not take is undone
in the indices that took it before; the error names the first index that refused.
-/
namespace IndexedStore.Store

/-- Indices, each with whether a change moves a handle in it. -/
abbrev Marked := List (Bool × Declared)

def markAll (indices : List Declared) : Marked := indices.map (true, ·)

def markAffected (before after : Entry) (indices : List Declared) : Checked Marked :=
  indices.mapM fun d => return (← d.index.isAffected before after, d)

/-- Places a handle in the marked indices, from slot `slot` on. If one does not take it, it leaves
those before again. -/
def place (source : Source) (h : Handle) (e : Entry) :
    (slot : Nat) → Marked → Checked (Option Error × List Declared)
  | _, [] => return (none, [])
  | slot, (false, d) :: rest => do
    let (refusal, rest) ← place source h e (slot + 1) rest
    return (refusal, d :: rest)
  | slot, (true, d) :: rest => do
    match ← d.index.add source h e with
    | .error why => return (some (← d.error slot e why), d :: rest.map Prod.snd)
    | .ok index =>
      let (refusal, rest) ← place source h e (slot + 1) rest
      let index ← if refusal.isSome then index.remove h e else pure index
      return (refusal, { d with index } :: rest)

def lift (h : Handle) (e : Entry) (marked : Marked) : Checked Marked :=
  marked.mapM fun (mark, d) => do
    let index ← if mark then d.index.remove h e else pure d.index
    return (mark, { d with index })

/-- Puts a handle back into the marked indices, which held it before. -/
def putBack (source : Source) (h : Handle) (e : Entry) (marked : Marked) :
    Checked (List Declared) :=
  marked.mapM fun (mark, d) => do
    if !mark then return d
    match ← d.index.add source h e with
    | .ok index => return { d with index }
    | .error _ => .error .unrestorable

def insert (s : Store) (e : Entry) : Checked (Except Error Handle × Store) := do
  if e.shape ≠ s.shape then return (.error (.shapeMismatch s.shape e.shape), s)
  let (h, slab) ← s.slab.insert e
  let some stored := slab.get? h | .error (.unreachable "entry inserted into the slab just now")
  match ← place slab.get? h stored 0 (markAll s.indices) with
  | (none, indices) => return (.ok h, { s with indices, slab })
  | (some refusal, indices) =>
    let (_, slab) ← slab.remove h
    return (.error refusal, { s with indices, slab })

/-- Changes the entry behind a handle from one version to another of the same shape. -/
def move (s : Store) (h : Handle) (before after : Entry) : Checked (Option Error × Store) := do
  let slab := s.slab.replace h after
  let some after := slab.get? h | .error (.unreachable "entry checked above")
  let marked ← markAffected before after s.indices
  let lifted ← lift h before marked
  match ← place slab.get? h after 0 lifted with
  | (none, indices) => return (none, { s with indices, slab })
  | (some refusal, indices) =>
    let slab := slab.replace h before
    let indices ← putBack slab.get? h before ((marked.map Prod.fst).zip indices)
    return (some refusal, { s with indices, slab })

/-- Applies a mutation to the entry behind a handle, and answers what the mutation answers. -/
def update {ρ : Type} (s : Store) (h : Handle) (mutate : Entry → Checked (Entry × ρ)) :
    Checked (Except Error (Option ρ) × Store) := do
  match s.entry? h with
  | none => return (.ok none, s)
  | some before =>
    let (after, answer) ← mutate before
    if after.shape ≠ s.shape then return (.error (.shapeMismatch s.shape after.shape), s)
    match ← s.move h before after with
    | (none, s) => return (.ok (some answer), s)
    | (some refusal, s) => return (.error refusal, s)

/-- Updates the entries behind some handles in turn, up to the first error. The mutation passes a
state on; the answer is the number of entries reached and the last state. -/
def updateAll {σ : Type} (mutate : σ → Entry → Checked (Entry × σ)) :
    List Handle → Nat → σ → Store → Checked (Except Error (Nat × σ) × Store)
  | [], count, state, s => return (.ok (count, state), s)
  | h :: rest, count, state, s => do
    match ← s.update h (mutate state) with
    | (.ok (some state), s) => updateAll mutate rest (count + 1) state s
    | (.ok none, s) => updateAll mutate rest count state s
    | (.error e, s) => return (.error e, s)

/-- Updates every entry that a probe reaches before the first of them changes. -/
def sliceUpdate {σ : Type} (s : Store) (slot : Nat) (probe : Entry) (state : σ)
    (mutate : σ → Entry → Checked (Entry × σ)) : Checked (Except Error (Nat × σ) × Store) := do
  let hits ← s.slice slot probe
  updateAll mutate (hits.map Prod.fst) 0 state s

def delete (s : Store) (h : Handle) : Checked (Option Entry × Store) := do
  match s.entry? h with
  | none => return (none, s)
  | some e =>
    let indices ← s.indices.mapM fun d => return { d with index := ← d.index.remove h e }
    let (removed, slab) ← s.slab.remove h
    return (removed, { s with indices, slab })

def deleteByKey (s : Store) (slot : Nat) (probe : Entry) : Checked (Option Entry × Store) := do
  match ← s.getHandle slot probe with
  | some h => s.delete h
  | none => return (none, s)

def clear (s : Store) : Store :=
  { s with
    indices := s.indices.map fun d => { d with index := d.index.clear }
    slab := s.slab.clear }

def removeAll : List Handle → Slab Entry → Checked (List Entry × Slab Entry)
  | [], slab => return ([], slab)
  | h :: rest, slab => do
    let (removed, slab) ← slab.remove h
    let (entries, slab) ← removeAll rest slab
    return (removed.toList ++ entries, slab)

def drain (s : Store) : Checked (List Entry × Store) := do
  let (entries, slab) ← removeAll s.handles s.slab
  return (entries, clear { s with slab })

end IndexedStore.Store
