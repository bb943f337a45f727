/-!
# Shortest decimals

A floating-point number stands for every real that rounds to it. `shortest` gives the decimal with
the fewest digits among those reals, and of the decimals with that many digits the nearest to the
number itself. All arithmetic is exact, on natural numbers.
-/
namespace IndexedStore.Decimal

/-- A number and the interval of reals that round to it, over one denominator. -/
structure Rounding where
  low : Nat
  value : Nat
  high : Nat
  denominator : Nat
  /-- Whether the ends of the interval round to the number too. -/
  closed : Bool
  deriving DecidableEq, Repr

/-- The digits of a decimal and the power of ten of its last digit. -/
structure Digits where
  coefficient : Nat
  exponent : Int
  deriving DecidableEq, Repr

/-- The rounding interval of a positive finite double, by its magnitude. The gap below a power of
two is half the gap above it. -/
def Rounding.ofMagnitude (magnitude : Nat) : Rounding :=
  -- the exponent field stands above 52 bits of fraction
  let field := magnitude / 0x10000000000000
  let fraction := magnitude % 0x10000000000000
  let significand := if field = 0 then fraction else fraction + 0x10000000000000
  let below := if fraction = 0 ∧ 1 < field then 1 else 2
  -- in units of a quarter of the last place, 2 ^ (field - 1077)
  let scale := Nat.pow 2 (max field 1 - 1077)
  { low := (4 * significand - below) * scale
    value := 4 * significand * scale
    high := (4 * significand + 2) * scale
    denominator := Nat.pow 2 (1077 - max field 1)
    closed := significand % 2 = 0 }

def digitCount (n : Nat) : Nat := (Nat.toDigits 10 n).length

/-- The `k` with `10 ^ (k - 1) ≤ value / denominator < 10 ^ k`, for a positive value. -/
def Rounding.pointPosition (r : Rounding) : Int :=
  if r.denominator ≤ r.value then digitCount (r.value / r.denominator)
  else 1 - (digitCount ((r.denominator - 1) / r.value) : Int)

def Rounding.inUnits (r : Rounding) (exponent : Int) : Rounding :=
  let up := Nat.pow 10 (-exponent).toNat
  { r with
    low := r.low * up
    value := r.value * up
    high := r.high * up
    denominator := r.denominator * Nat.pow 10 exponent.toNat }

def Rounding.covers (r : Rounding) (n : Nat) : Bool :=
  let n := n * r.denominator
  if r.closed then r.low ≤ n ∧ n ≤ r.high else r.low < n ∧ n < r.high

/-- The nearest whole number in the interval among the two neighbours of the value; a value halfway
between them goes up. -/
def Rounding.nearest? (r : Rounding) : Option Nat :=
  let below := r.value / r.denominator
  match r.covers below, r.covers (below + 1) with
  | true, true => some (if 2 * (r.value % r.denominator) < r.denominator then below else below + 1)
  | true, false => some below
  | false, true => some (below + 1)
  | false, false => none

def Rounding.withDigits? (r : Rounding) (count : Nat) : Option Digits :=
  let exponent := r.pointPosition - count
  (r.inUnits exponent).nearest?.map fun n => ⟨n, exponent⟩

def Digits.trim : Nat → Digits → Digits
  | 0, d => d
  | fuel + 1, d =>
    if d.coefficient % 10 = 0 ∧ d.coefficient ≠ 0 then
      trim fuel ⟨d.coefficient / 10, d.exponent + 1⟩
    else d

/-- The shortest decimal that rounds to a positive finite double; seventeen digits suffice. -/
def shortest (magnitude : Nat) : Digits :=
  let r := Rounding.ofMagnitude magnitude
  let found := (List.range 17).findSome? fun n => r.withDigits? (n + 1)
  Digits.trim 18 (found.getD ⟨r.value / r.denominator, 0⟩)

end IndexedStore.Decimal
