/-!
# Ordered tables

Rows in ascending order of their keys, no key twice. Keys that compare as equal are one key, and a
row keeps the key it came with.
-/
namespace IndexedStore.OrderedTable

variable {κ ν : Type} (compare : κ → κ → Ordering)

def find? (key : κ) : List (κ × ν) → Option ν
  | [] => none
  | (k, v) :: rows =>
    match compare key k with
    | .lt => none
    | .eq => some v
    | .gt => find? key rows

/-- A row in front of others, if there is content for it. -/
def consRow (key : κ) (content : Option ν) (rows : List (κ × ν)) : List (κ × ν) :=
  match content with
  | some v => (key, v) :: rows
  | none => rows

/-- Replaces the content under a key; without content there is no row. -/
def alter (key : κ) (f : Option ν → Option ν) : List (κ × ν) → List (κ × ν)
  | [] => consRow key (f none) []
  | (k, v) :: rows =>
    match compare key k with
    | .lt => consRow key (f none) ((k, v) :: rows)
    | .eq => consRow k (f (some v)) rows
    | .gt => (k, v) :: alter key f rows

def put (key : κ) (content : ν) : List (κ × ν) → List (κ × ν) :=
  alter compare key fun _ => some content

def erase (key : κ) : List (κ × ν) → List (κ × ν) :=
  alter compare key fun _ => none

end IndexedStore.OrderedTable
