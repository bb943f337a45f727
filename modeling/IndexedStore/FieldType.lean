/-!
# Field types

The scalar types a position of an entry can hold.
-/
namespace IndexedStore

inductive FieldType where
  | int | long | double | str | date | bool
  deriving DecidableEq, Repr

namespace FieldType

/-- One-letter code used in shape signatures. -/
def code : FieldType → Char
  | .int => 'I'
  | .long => 'L'
  | .double => 'D'
  | .str => 'S'
  | .date => 'T'
  | .bool => 'B'

def ofCode? : Char → Option FieldType
  | 'I' => some .int
  | 'L' => some .long
  | 'D' => some .double
  | 'S' => some .str
  | 'T' => some .date
  | 'B' => some .bool
  | _ => none

theorem ofCode?_code (t : FieldType) : ofCode? t.code = some t := by
  cases t <;> rfl

theorem code_of_ofCode? {c : Char} {t : FieldType} (h : ofCode? c = some t) : t.code = c := by
  unfold ofCode? at h
  split at h <;> simp_all [code] <;> subst h <;> rfl

def name : FieldType → String
  | .int => "int"
  | .long => "long"
  | .double => "double"
  | .str => "string"
  | .date => "date"
  | .bool => "bool"

def label : FieldType → String
  | .int => "Int"
  | .long => "Long"
  | .double => "Double"
  | .str => "Str"
  | .date => "Date"
  | .bool => "Bool"

def rank : FieldType → Nat
  | .int => 0
  | .long => 1
  | .double => 2
  | .str => 3
  | .date => 4
  | .bool => 5

def isNumeric : FieldType → Bool
  | .int | .long | .double | .date => true
  | .str | .bool => false

/-- Whether a field of this type can key an array index. -/
def isIntegral : FieldType → Bool
  | .int | .long | .date => true
  | .double | .str | .bool => false

end FieldType
end IndexedStore
