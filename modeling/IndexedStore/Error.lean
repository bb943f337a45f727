import IndexedStore.Handle
import IndexedStore.Index.Kind
import IndexedStore.Shape
import IndexedStore.Value.Text

/-!
# Errors

`Error` is what an operation reports and a caller can act on. Only a duplicate key is an ordinary
outcome; every other error points at a mistake of the caller. `Rejection` is the answer of a single
index that does not take a handle.
-/
namespace IndexedStore

inductive DescriptorError where
  | keyOutOfRange (position : Nat) (shape : Shape)
  | keyRepeated (position : Nat)
  | positionOutOfRange (kind : IndexKind) (slot position : Nat) (shape : Shape)
  | positionRepeated (kind : IndexKind) (slot position : Nat)
  | noKeyField (kind : IndexKind) (slot : Nat)
  | noArrayBound (slot : Nat)
  | emptyBounds (slot : Nat) (low high : Int64) (position : Nat)
  | nonIntegral (slot position : Nat) (type : FieldType)
  | tooManySlots (slot limit : Nat)
  | noGroupField (slot : Nat)
  | targetOutOfRange (slot target : Nat) (shape : Shape)
  | targetInGroup (slot target : Nat)
  | heapPrimary
  | partitionNotEarlier (slot partition : Nat)
  | partitionMismatch (slot partition : Nat)
  | noPrimary
  | noLayout (shape : Shape)
  | notTree (slot : Nat) (kind : IndexKind)
  deriving DecidableEq, Repr

namespace DescriptorError

def message : DescriptorError → String
  | .keyOutOfRange p s => s!"key position {p} out of range for shape {s.name}"
  | .keyRepeated p => s!"key position {p} listed twice"
  | .positionOutOfRange k i p s =>
    s!"{k.name} index {i}: position {p} out of range for shape {s.name}"
  | .positionRepeated k i p => s!"{k.name} index {i}: position {p} listed twice"
  | .noKeyField k i => s!"{k.name} index {i} needs at least one key field"
  | .noArrayBound i => s!"array index {i} needs one bound per key field"
  | .emptyBounds i low high p =>
    s!"array index {i}: empty bounds [{low.toInt}, {high.toInt}) on position {p}"
  | .nonIntegral i p t => s!"array index {i}: position {p} has non-integral type {t.name}"
  | .tooManySlots i limit => s!"array index {i} addresses more than {limit} slots"
  | .noGroupField i => s!"slice heap {i} needs at least one group field"
  | .targetOutOfRange i t s => s!"slice heap {i}: target {t} out of range for shape {s.name}"
  | .targetInGroup i t => s!"slice heap {i}: target {t} is part of its group key"
  | .heapPrimary => "a slice heap cannot be the primary index"
  | .partitionNotEarlier i p => s!"slice heap {i}: partition index {p} is not declared before it"
  | .partitionMismatch i p =>
    s!"slice heap {i}: partition index {p} is not a hash index on the same group"
  | .noPrimary => "a store needs a primary index"
  | .noLayout s => s!"no layout recorded for {s.name}"
  | .notTree i k => s!"index {i} is a {k.name} index, not a tree index"

end DescriptorError

inductive Error where
  | shapeMismatch (expected got : Shape)
  | typeMismatch (position : Nat) (expected got : FieldType)
  | positionOutOfRange (position arity : Nat)
  | invalidDescriptor (cause : DescriptorError)
  | keyOutOfBounds (slot : Nat) (key : List Value)
  | duplicateKey (slot : Nat) (key : List Value)
  deriving DecidableEq, Repr

namespace Error

def message : Error → String
  | .shapeMismatch expected got =>
    s!"shape mismatch: store holds {expected.name}, entry is {got.name}"
  | .typeMismatch p expected got =>
    s!"type mismatch at position {p}: expected {expected.name}, got {got.name}"
  | .positionOutOfRange p arity => s!"position {p} out of range for arity {arity}"
  | .invalidDescriptor cause => "invalid index descriptor: " ++ cause.message
  | .keyOutOfBounds i key =>
    s!"key {Value.diagnosticList key} outside the bounds of array index {i}"
  | .duplicateKey i key => s!"duplicate key on index {i}: {Value.diagnosticList key}"

def isDuplicateKey : Error → Bool
  | .duplicateKey _ _ => true
  | _ => false

/-- Whether the error points at a mistake of the caller. -/
def isFatal (e : Error) : Bool := !e.isDuplicateKey

end Error

inductive Rejection where
  /-- A unique index holds another handle under an equal key. -/
  | duplicateKey (holder : Handle)
  /-- The key lies outside the bounds of an array index. -/
  | outOfBounds
  deriving DecidableEq, Repr

namespace Rejection

def message : Rejection → String
  | .duplicateKey holder => s!"duplicate key in unique index, held by {holder.text}"
  | .outOfBounds => "key outside the bounds of the array index"

end Rejection
end IndexedStore
