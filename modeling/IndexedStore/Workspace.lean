import IndexedStore.Layout
import IndexedStore.Registry
import IndexedStore.Store.Settled

/-!
# Workspaces

Numbered stores that share a registry. The layout noted for a shape is the one that the last store
built for it, or the last index added to one, ended with.
-/
namespace IndexedStore

structure Workspace where
  registry : Registry
  stores : List (Nat × SettledStore)
  deriving DecidableEq, Repr

namespace Workspace

def empty : Workspace := ⟨.empty, []⟩

def store? (w : Workspace) (number : Nat) : Option SettledStore := w.stores.lookup number

def put (w : Workspace) (number : Nat) (s : SettledStore) : Workspace :=
  { w with stores := (number, s) :: w.stores.filter fun (other, _) => other ≠ number }

def putRecorded (w : Workspace) (number : Nat) (s : SettledStore) : Workspace :=
  { w.put number s with registry := w.registry.record s.store.shape s.store.descriptors }

/-- Puts a store under a number, and notes its layout if an operation on `before` added to it. -/
def putGrown (w : Workspace) (number : Nat) (before after : SettledStore) : Workspace :=
  if before.store.indices.length < after.store.indices.length then w.putRecorded number after
  else w.put number after

def create (w : Workspace) (number : Nat) (shape : Shape) (layout : List Descriptor) :
    Except Error Workspace := do
  return w.putRecorded number (.ofStore (← Store.create shape layout))

/-- The plan of the layout last noted for a shape. -/
def planLike (w : Workspace) (shape : Shape) : Except Error LayoutPlan :=
  match w.registry.layout? shape with
  | some layout => .ok (.ofLayout layout)
  | none => .error (.invalidDescriptor (.noLayout shape))

def build (w : Workspace) (number : Nat) (shape : Shape) (plan : LayoutPlan) :
    Except Error Workspace := do
  w.create number shape (← plan.descriptors)

def addIndex (w : Workspace) (number : Nat) (s : SettledStore) (d : Descriptor) :
    Checked (Except Error Nat × Workspace) := do
  match ← s.addIndex d with
  | .ok (slot, grown) => return (.ok slot, w.putGrown number s grown)
  | .error e => return (.error e, w)

def extreme (w : Workspace) (number : Nat) (s : SettledStore) (order : Direction) (probe : Entry)
    (group : List Nat) (target : Nat) : Checked (Except Error (Option Entry) × Workspace) := do
  let (answer, after) ← s.extreme order probe group target
  return (answer, w.putGrown number s after)

end Workspace
end IndexedStore
