import IndexedStore.Descriptor

/-!
# Registries

What stores have in common: numbers for shapes, the projections in use, and for each shape the
layout it was last stored under.
-/
namespace IndexedStore

/-- A shape as a registry hands it out. Such shapes are told apart by their ids. -/
structure RegisteredShape where
  id : UInt32
  shape : Shape
  deriving DecidableEq, Repr

namespace RegisteredShape

def same (a b : RegisteredShape) : Bool := a.id == b.id

end RegisteredShape

/-- What a projection is kept under: the id of its shape, its positions and its comparison. -/
structure ProjectionKey where
  shape : UInt32
  positions : List Nat
  comparison : Comparison
  deriving DecidableEq, Repr

structure Registry where
  /-- Shapes in the order of their numbers. -/
  shapes : List Shape
  projections : List (ProjectionKey × Projection)
  /-- Layouts by the id of the shape. -/
  layouts : List (UInt32 × List Descriptor)
  deriving DecidableEq, Repr

namespace Registry

def empty : Registry := ⟨[], [], []⟩

/-- The number of a shape, given out on first sight. -/
def intern (r : Registry) (shape : Shape) : Nat × Registry :=
  match r.shapes.idxOf? shape with
  | some id => (id, r)
  | none => (r.shapes.length, { r with shapes := r.shapes ++ [shape] })

/-- The shape with some fields. Its id is its number in 32 bits. -/
def register (r : Registry) (fields : List FieldType) : RegisteredShape × Registry :=
  let (number, r) := r.intern ⟨fields⟩
  (⟨.ofNat number, ⟨fields⟩⟩, r)

def registered? (r : Registry) (shape : Shape) : Option RegisteredShape :=
  (r.shapes.idxOf? shape).map fun number => ⟨.ofNat number, shape⟩

/-- The shape of a signature. Nothing is registered unless all characters are codes of types. -/
def parse (r : Registry) (signature : String) : Option RegisteredShape × Registry :=
  match Shape.ofSignature? signature with
  | some shape =>
    let (registered, r) := r.register shape.fields
    (some registered, r)
  | none => (none, r)

/-- The projection of a registered shape on some positions, made on first request. -/
def projectionOf (r : Registry) (registered : RegisteredShape) (positions : List Nat)
    (comparison : Comparison) : Except Error Projection × Registry :=
  match Projection.onPositions registered.shape positions comparison with
  | .error e => (.error e, r)
  | .ok fresh =>
    let key : ProjectionKey := ⟨registered.id, fresh.positions, comparison⟩
    match r.projections.lookup key with
    | some known => (.ok known, r)
    | none => (.ok fresh, { r with projections := (key, fresh) :: r.projections })

def projection (r : Registry) (shape : Shape) (positions : List Nat) (comparison : Comparison) :
    Except Error Projection × Registry :=
  let (registered, r) := r.register shape.fields
  r.projectionOf registered positions comparison

/-- Notes the layout of a shape, in place of an earlier one. -/
def record (r : Registry) (shape : Shape) (layout : List Descriptor) : Registry :=
  let (registered, r) := r.register shape.fields
  let others := r.layouts.filter fun (id, _) => id ≠ registered.id
  { r with layouts := (registered.id, layout) :: others }

def layout? (r : Registry) (shape : Shape) : Option (List Descriptor) := do
  let registered ← r.registered? shape
  r.layouts.lookup registered.id

end Registry
end IndexedStore
