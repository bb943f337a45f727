import IndexedStore.FieldType

/-!
# Shapes

The ordered list of field types of a family of entries. Positions count from one.
-/
namespace IndexedStore

structure Shape where
  fields : List FieldType
  deriving DecidableEq, Repr

namespace Shape

def arity (s : Shape) : Nat := s.fields.length

def field? (s : Shape) (position : Nat) : Option FieldType :=
  if position = 0 then none else s.fields[position - 1]?

def signature (s : Shape) : String := String.ofList (s.fields.map FieldType.code)

/-- Reads a signature; every character must be the code of a type. -/
def ofSignature? (signature : String) : Option Shape :=
  (signature.toList.mapM FieldType.ofCode?).map Shape.mk

def positions (s : Shape) : List Nat := (List.range s.arity).map (· + 1)

def name (s : Shape) : String := "SEntry" ++ toString s.arity ++ "_" ++ s.signature

def diagnostic (s : Shape) : String := "Shape(" ++ s.signature ++ ")"

end Shape
end IndexedStore
