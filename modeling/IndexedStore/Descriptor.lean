import IndexedStore.Projection

/-!
# Index descriptors

What a store is told about one of its indices: the form of the index with its key positions, and
for a heap possibly the slot of the hash index on the same group. `validate` decides whether an
index of that description can stand at a slot of a store.
-/
namespace IndexedStore

/-- A key position of an array index and the half-open range of its values. -/
structure Axis where
  position : Nat
  low : Int64
  high : Int64
  deriving DecidableEq, Repr

namespace Axis

def maxSlots : Nat := 0x1000000

/-- The number of values on an axis; none if the bounds are reversed or 2⁶³ or more apart. -/
def span? (axis : Axis) : Option Nat :=
  let span := axis.high.toInt - axis.low.toInt
  if 0 ≤ span ∧ span < 0x8000000000000000 then some span.toNat else none

/-- The number of slots some axes address together, if it never grows past the limit. -/
def slotCount? (axes : List Axis) : Option Nat :=
  axes.foldlM (fun slots axis => do
    let span ← axis.span?
    if slots * span ≤ maxSlots then some (slots * span) else none) 1

end Axis

inductive IndexForm where
  /-- Lookups compare the given positions, or all if there is none. -/
  | list (fields : List Nat)
  | hash (fields : List Nat) (unique : Bool)
  | tree (fields : List Nat) (unique : Bool)
  | array (axes : List Axis)
  | heap (order : Direction) (group : List Nat) (target : Nat)
  deriving DecidableEq, Repr

structure Descriptor where
  form : IndexForm
  /-- The slot of the hash index on the group of a heap. -/
  partition : Option Nat
  deriving DecidableEq, Repr

namespace Descriptor

def ofForm (form : IndexForm) : Descriptor := ⟨form, none⟩

def kind (d : Descriptor) : IndexKind :=
  match d.form with
  | .list _ => .list
  | .hash _ _ => .hash
  | .tree _ _ => .tree
  | .array _ => .array
  | .heap order _ _ => .heap order

/-- The key positions; the group positions of a heap. -/
def fields (d : Descriptor) : List Nat :=
  match d.form with
  | .list fields | .hash fields _ | .tree fields _ | .heap _ fields _ => fields
  | .array axes => axes.map Axis.position

def isUnique (d : Descriptor) : Bool :=
  match d.form with
  | .hash _ unique | .tree _ unique => unique
  | .array _ => true
  | .list _ | .heap _ _ _ => false

def target? (d : Descriptor) : Option Nat :=
  match d.form with
  | .heap _ _ target => some target
  | _ => none

def axes (d : Descriptor) : List Axis :=
  match d.form with
  | .array axes => axes
  | _ => []

def withPartition (d : Descriptor) (slot : Nat) : Descriptor := { d with partition := some slot }

def isHashOn (d : Descriptor) (fields : List Nat) : Bool := d.kind = .hash ∧ d.fields = fields

def slotCount? (d : Descriptor) : Option Nat := Axis.slotCount? d.axes

def checkAxes (shape : Shape) (slot : Nat) : List Axis → Except DescriptorError Unit
  | [] => .ok ()
  | axis :: rest =>
    if axis.high ≤ axis.low then .error (.emptyBounds slot axis.low axis.high axis.position)
    else match shape.field? axis.position with
      | some type =>
        if type.isIntegral then checkAxes shape slot rest
        else .error (.nonIntegral slot axis.position type)
      | none => checkAxes shape slot rest

def checkPartition (group : List Nat) (slot : Nat) (earlier : List Descriptor) :
    Option Nat → Except DescriptorError Unit
  | none => .ok ()
  | some partition =>
    match earlier[partition]? with
    | none => .error (.partitionNotEarlier slot partition)
    | some grouping =>
      if grouping.isHashOn group then .ok () else .error (.partitionMismatch slot partition)

def checkForm (d : Descriptor) (shape : Shape) (slot : Nat) (earlier : List Descriptor) :
    Except DescriptorError Unit :=
  match d.form with
  | .list _ => .ok ()
  | .hash fields _ | .tree fields _ =>
    if fields.isEmpty then .error (.noKeyField d.kind slot) else .ok ()
  | .array axes =>
    if axes.isEmpty then .error (.noArrayBound slot)
    else do
      checkAxes shape slot axes
      if (Axis.slotCount? axes).isNone then .error (.tooManySlots slot Axis.maxSlots)
  | .heap _ group target =>
    if group.isEmpty then .error (.noGroupField slot)
    else if target = 0 ∨ shape.arity < target then .error (.targetOutOfRange slot target shape)
    else if target ∈ group then .error (.targetInGroup slot target)
    else if slot = 0 then .error .heapPrimary
    else checkPartition group slot earlier d.partition

/-- Checks a descriptor against a shape and the descriptors of the slots before its own. -/
def validate (d : Descriptor) (shape : Shape) (slot : Nat) (earlier : List Descriptor) :
    Except Error Unit := do
  Projection.checkPositions shape (.positionOutOfRange d.kind slot · shape)
    (.positionRepeated d.kind slot) [] d.fields
  (d.checkForm shape slot earlier).mapError .invalidDescriptor

def optionText (n : Option Nat) : String :=
  match n with
  | some n => s!"Some({n})"
  | none => "None"

def diagnostic (d : Descriptor) : String :=
  "IndexDescriptor \x7b kind: " ++ d.kind.label ++
    ", fields: " ++ Text.bracketed "[" "]" (d.fields.map toString) ++
    ", unique: " ++ toString d.isUnique ++
    ", target: " ++ optionText d.target? ++
    ", partition: " ++ optionText d.partition ++
    ", bounds: " ++ Text.bracketed "[" "]"
      (d.axes.map fun axis => s!"({axis.low.toInt}, {axis.high.toInt})") ++ " \x7d"

end Descriptor
end IndexedStore
