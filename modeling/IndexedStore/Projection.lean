import IndexedStore.Entry

/-!
# Keys and projections

A key is a tuple of values. A projection takes the key of an entry: the values at a list of
positions. An unset value is a wildcard: it agrees with every value, on either side. The exact
comparisons `same`, `compare` and `changed` treat it as a value of its own.
-/
namespace IndexedStore

abbrev Key := List Value

namespace Key

def isPartial (key : Key) : Bool := key.any Value.isUnset

/-- How many values are set before the first unset one. -/
def leadLength (key : Key) : Nat := (key.takeWhile fun v => !v.isUnset).length

def lead (n : Nat) (key : Key) : Checked Key :=
  if n ≤ key.length then .ok (key.take n) else .error (.outOfRange key.length n)

/-- Equality up to wildcards. -/
def agrees (a b : Key) : Bool :=
  (a.zip b).all fun (x, y) => x.isUnset || y.isUnset || x.same y

/-- The order up to wildcards: the first set pair that differs decides. -/
def compareSet : Key → Key → Ordering
  | x :: a, y :: b =>
    if x.isUnset || y.isUnset then compareSet a b
    else (x.compare y).then (compareSet a b)
  | _, _ => .eq

/-- The order of keys: the first value that differs decides, then the length. -/
def compare : Key → Key → Ordering := List.compareLex Value.compare

def same (a b : Key) : Bool := (a.zip b).all fun (x, y) => x.same y

def hash (key : Key) : UInt32 := Mixing.digest (key.map Value.hashBlock) key.length

end Key

structure Projection where
  shape : Shape
  /-- Offsets of the key fields, from zero. -/
  offsets : List Nat
  comparison : Comparison
  deriving DecidableEq, Repr

namespace Projection

/-- Checks that positions lie inside a shape and differ from each other and from those `seen`. -/
def checkPositions (shape : Shape) (outOfRange repeated : Nat → DescriptorError) :
    (seen positions : List Nat) → Except Error Unit
  | _, [] => .ok ()
  | seen, p :: rest =>
    if p = 0 ∨ shape.arity < p then .error (.invalidDescriptor (outOfRange p))
    else if p ∈ seen then .error (.invalidDescriptor (repeated p))
    else checkPositions shape outOfRange repeated (p :: seen) rest

/-- The projection of a shape on some positions; on all of them, if none is listed. -/
def onPositions (shape : Shape) (positions : List Nat) (comparison : Comparison) :
    Except Error Projection := do
  let positions := if positions.isEmpty then shape.positions else positions
  checkPositions shape (.keyOutOfRange · shape) .keyRepeated [] positions
  return ⟨shape, positions.map (· - 1), comparison⟩

def width (π : Projection) : Nat := π.offsets.length

def positions (π : Projection) : List Nat := π.offsets.map (· + 1)

def project (π : Projection) (e : Entry) : Checked Key := π.offsets.mapM (itemAt e.values)

def hash (π : Projection) (e : Entry) : Checked UInt32 := Key.hash <$> π.project e

def isPartial (π : Projection) (probe : Entry) : Checked Bool :=
  π.offsets.anyM fun o => Value.isUnset <$> itemAt probe.values o

def agrees (π : Projection) (probe e : Entry) : Checked Bool :=
  π.offsets.allM fun o => do
    let x ← itemAt probe.values o
    if x.isUnset then return true
    let y ← itemAt e.values o
    return y.isUnset || x.same y

/-- Whether two entries have the same key, sentinels included. -/
def sameKey (π : Projection) (a b : Entry) : Checked Bool :=
  π.offsets.allM fun o => do
    let x ← itemAt a.values o
    let y ← itemAt b.values o
    return x.same y

def changed (π : Projection) (before after : Entry) : Checked Bool :=
  π.offsets.anyM fun o => do
    let x ← itemAt before.values o
    let y ← itemAt after.values o
    return !x.same y

end Projection
end IndexedStore
