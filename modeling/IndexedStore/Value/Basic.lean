import IndexedStore.Double
import IndexedStore.FieldType
import IndexedStore.Mixing

/-!
# Values

The content of one entry position. Every type has a sentinel, `unset`: the content of a fresh
position, and a wildcard in a lookup key. Values are ordered by type first; within a type the
sentinel comes first. Two values are the same if the order puts them level.
-/
namespace IndexedStore

inductive Value where
  | int (v : Int32)
  | long (v : Int64)
  | double (v : Double)
  | str (v : String)
  | date (v : Int64)
  | bool (v : Bool)
  | unset (type : FieldType)
  deriving DecidableEq, Repr

namespace Value

/-- The type of a value; a sentinel keeps its own. -/
def type : Value → FieldType
  | .int _ => .int
  | .long _ => .long
  | .double _ => .double
  | .str _ => .str
  | .date _ => .date
  | .bool _ => .bool
  | .unset t => t

def isUnset : Value → Bool
  | .unset _ => true
  | _ => false

def integral? : Value → Option Int64
  | .int v => some (Int64.ofInt v.toInt)
  | .long v | .date v => some v
  | _ => none

/-- The order of values: by type, then the sentinel, then the payload. -/
def compare : Value → Value → Ordering
  | .int a, .int b => Ord.compare a.toInt b.toInt
  | .long a, .long b => Ord.compare a.toInt b.toInt
  | .double a, .double b => Double.compare a b
  | .str a, .str b => Ord.compare a b
  | .date a, .date b => Ord.compare a.toInt b.toInt
  | .bool a, .bool b => Ord.compare a b
  | a, b => (Ord.compare a.type.rank b.type.rank).then (Ord.compare (!a.isUnset) (!b.isUnset))

def same (a b : Value) : Bool := (compare a b).isEq

def isClose : Value → Value → Bool
  | .double a, .double b => a.isClose b
  | a, b => a.same b

def hashBlock : Value → UInt32
  | .int v => v.toUInt32
  | .long v | .date v => Mixing.fold v.toUInt64
  | .double v => Mixing.fold v.canonicalBits
  | .str v => Mixing.text v
  | .bool v => if v then 1 else 0
  | .unset _ => 0

def hashFeed (v : Value) : Nat × UInt32 := (v.type.rank, v.hashBlock)

end Value
end IndexedStore
