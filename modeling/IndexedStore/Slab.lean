import IndexedStore.Fault
import IndexedStore.Handle

/-!
# Slabs

Contents in numbered cells. A cell that is vacated moves on to its next generation and is used
again, the latest first, before a new cell is opened. A handle reaches a cell only in the generation
it was issued for, so it never reaches what comes to the cell later, short of a full turn of the
generations.
-/
namespace IndexedStore

structure Cell (α : Type) where
  generation : UInt32
  content : Option α
  deriving DecidableEq, Repr

namespace Cell

variable {α : Type}

def vacate (cell : Cell α) : Cell α :=
  match cell.content with
  | some _ => ⟨cell.generation + 1, none⟩
  | none => cell

end Cell

structure Slab (α : Type) where
  cells : Array (Cell α)
  /-- Slots of vacant cells, the next to be used first. -/
  vacant : List UInt32
  /-- The number of occupied cells. -/
  size : Nat
  deriving DecidableEq, Repr

namespace Slab

variable {α : Type}

def empty : Slab α := ⟨#[], [], 0⟩

def insert (s : Slab α) (x : α) : Checked (Handle × Slab α) :=
  match s.vacant with
  | slot :: vacant =>
    match s.cells[slot.toNat]? with
    | some cell =>
      let cells := s.cells.setIfInBounds slot.toNat { cell with content := some x }
      .ok (⟨slot, cell.generation⟩, ⟨cells, vacant, s.size + 1⟩)
    | none => .error (.outOfBounds s.cells.size slot.toNat)
  | [] => .ok (⟨UInt32.ofNat s.cells.size, 0⟩, ⟨s.cells.push ⟨0, some x⟩, [], s.size + 1⟩)

/-- The cell a handle was issued for, in the generation it was issued for. -/
def cell? (s : Slab α) (h : Handle) : Option (Cell α) :=
  s.cells[h.slot.toNat]?.filter fun cell => cell.generation = h.generation

def get? (s : Slab α) (h : Handle) : Option α := (s.cell? h).bind Cell.content

def contains (s : Slab α) (h : Handle) : Bool := (s.get? h).isSome

def replace (s : Slab α) (h : Handle) (x : α) : Slab α :=
  if s.contains h then
    { s with cells := s.cells.setIfInBounds h.slot.toNat ⟨h.generation, some x⟩ }
  else s

def remove (s : Slab α) (h : Handle) : Checked (Option α × Slab α) :=
  match s.get? h with
  | none => .ok (none, s)
  | some x => do
    let size ← decrement s.size
    let cells := s.cells.setIfInBounds h.slot.toNat ⟨h.generation + 1, none⟩
    return (some x, ⟨cells, h.slot :: s.vacant, size⟩)

/-- The contents with their handles, in slot order. -/
def toList (s : Slab α) : List (Handle × α) :=
  s.cells.toList.zipIdx.filterMap fun (cell, slot) =>
    cell.content.map fun x => (⟨UInt32.ofNat slot, cell.generation⟩, x)

def clear (s : Slab α) : Slab α :=
  ⟨s.cells.map Cell.vacate, ((List.range s.cells.size).map UInt32.ofNat).reverse, 0⟩

def drain (s : Slab α) : List α × Slab α := (s.cells.toList.filterMap Cell.content, s.clear)

end Slab
end IndexedStore
