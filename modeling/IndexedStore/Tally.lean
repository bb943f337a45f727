/-!
# Tallies

The counters every index keeps.
-/
namespace IndexedStore

structure Tally where
  /-- Handles held now. -/
  entries : Nat
  /-- Distinct keys, chains or groups held now. -/
  keys : Nat
  /-- The most handles ever held at once. -/
  peak : Nat
  deriving DecidableEq, Repr

namespace Tally

def zero : Tally := ⟨0, 0, 0⟩

def addEntry (t : Tally) : Tally :=
  { t with entries := t.entries + 1, peak := max t.peak (t.entries + 1) }

def removeEntry (t : Tally) : Tally := { t with entries := t.entries - 1 }

def addKey (t : Tally) : Tally := { t with keys := t.keys + 1 }

def removeKey (t : Tally) : Tally := { t with keys := t.keys - 1 }

/-- Back to nothing held; the peak stays. -/
def clear (t : Tally) : Tally := { t with entries := 0, keys := 0 }

end Tally
end IndexedStore
