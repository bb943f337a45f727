/-!
# Doubles

A 64-bit floating-point number by its bits. The order puts every NaN after every number, all NaNs
level, and the two zeros level.
-/
namespace IndexedStore

structure Double where
  bits : UInt64
  deriving DecidableEq, Repr

namespace Double

def magnitude (d : Double) : Nat := d.bits.toNat % 0x8000000000000000

def isNegative (d : Double) : Bool := 0x8000000000000000 ≤ d.bits.toNat

/-- The magnitude of infinity; a NaN lies above it. -/
def infinity : Nat := 0x7ff0000000000000

def isNaN (d : Double) : Bool := infinity < d.magnitude

def isInfinite (d : Double) : Bool := d.magnitude = infinity

/-- Doubles are ordered as their ranks are: magnitudes grow with the number, and every NaN gets the
rank above all. -/
def rank (d : Double) : Int :=
  if d.isNaN then 0x8000000000000000
  else if d.isNegative then -(d.magnitude : Int) else d.magnitude

def compare (a b : Double) : Ordering := Ord.compare a.rank b.rank

instance : Std.TransCmp compare := inferInstanceAs (Std.TransCmp (compareOn rank))

/-- One bit pattern for all doubles of a rank. -/
def canonicalBits (d : Double) : UInt64 :=
  if d.magnitude = 0 then 0
  else if d.isNaN then 0x7ff8000000000000
  else d.bits

def toFloat (d : Double) : Float := Float.ofBits d.bits

def ofFloat (x : Float) : Double := ⟨x.toBits⟩

def add (a b : Double) : Double := ofFloat (a.toFloat + b.toFloat)

def sub (a b : Double) : Double := ofFloat (a.toFloat - b.toFloat)

def neg (a : Double) : Double := ofFloat (-a.toFloat)

def isClose (a b : Double) : Bool := (a.toFloat - b.toFloat).abs < 0.01

end Double
end IndexedStore
