import IndexedStore.Direction

/-!
# Index kinds

How an index finds its entries.
-/
namespace IndexedStore

inductive IndexKind where
  /-- Handles in order of arrival, found by walking them all. -/
  | list
  /-- Chains of handles by the hash of their key. -/
  | hash
  /-- Handles under their keys, in key order. -/
  | tree
  /-- One handle at most for each tuple of bounded integers. -/
  | array
  /-- A heap on a target field for each group of entries. -/
  | heap (order : Direction)
  deriving DecidableEq, Repr

inductive Comparison where
  | equality | ordering
  deriving DecidableEq, Repr

namespace Comparison

def label : Comparison → String
  | .equality => "Equality"
  | .ordering => "Ordering"

end Comparison

namespace IndexKind

def comparison : IndexKind → Comparison
  | .tree => .ordering
  | _ => .equality

def isHeap : IndexKind → Bool
  | .heap _ => true
  | _ => false

def name : IndexKind → String
  | .list => "list"
  | .hash => "hash"
  | .tree => "tree"
  | .array => "array"
  | .heap .ascending => "slice-heap-min"
  | .heap .descending => "slice-heap-max"

def label : IndexKind → String
  | .list => "List"
  | .hash => "Hash"
  | .tree => "Tree"
  | .array => "Array"
  | .heap .ascending => "SliceHeapMin"
  | .heap .descending => "SliceHeapMax"

end IndexKind
end IndexedStore
