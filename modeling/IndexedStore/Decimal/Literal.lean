import IndexedStore.Double
import IndexedStore.Decimal.Shortest

/-!
# Number literals

The text of a double: its shortest decimal, written positionally where it is neither large nor
small, and always recognisable as a double.
-/
namespace IndexedStore.Decimal

/-- Decisions of a text format for floating-point numbers. -/
structure LiteralStyle where
  /-- Decimal exponents of the first digit that are written positionally. -/
  lowest : Int
  highest : Int
  /-- Written after a positional number without fraction. -/
  wholeSuffix : String
  exponentMark : String
  infinity : String
  notANumber : String

/-- From a ten-thousandth up to 10¹⁶ a number is written with a point and at least one digit after
it; outside, with a power of ten. -/
def LiteralStyle.plain : LiteralStyle :=
  { lowest := -4, highest := 15, wholeSuffix := ".0", exponentMark := "e",
    infinity := "inf", notANumber := "NaN" }

/-- A coefficient's digits with a point after the first `whole` of them; `whole` may lie outside. -/
def positional (style : LiteralStyle) (digits : String) (whole : Int) : String :=
  if whole ≤ 0 then
    "0." ++ String.ofList (List.replicate (-whole).toNat '0') ++ digits
  else if (digits.length : Int) ≤ whole then
    digits ++ String.ofList (List.replicate (whole.toNat - digits.length) '0') ++ style.wholeSuffix
  else
    (digits.take whole.toNat).copy ++ "." ++ (digits.drop whole.toNat).copy

def scientific (style : LiteralStyle) (digits : String) (exponent : Int) : String :=
  let mantissa :=
    if digits.length = 1 then digits
    else (digits.take 1).copy ++ "." ++ (digits.drop 1).copy
  mantissa ++ style.exponentMark ++ toString exponent

def unsigned (style : LiteralStyle) (magnitude : Nat) : String :=
  if magnitude = 0 then positional style "0" 1
  else
    let d := shortest magnitude
    let digits := toString d.coefficient
    let whole := d.exponent + digits.length
    if style.lowest ≤ whole - 1 ∧ whole - 1 ≤ style.highest then positional style digits whole
    else scientific style digits (whole - 1)

/-- The text of a double. A NaN has no sign, zero keeps its own. -/
def literal (style : LiteralStyle) (d : Double) : String :=
  if d.isNaN then style.notANumber
  else
    (if d.isNegative then "-" else "") ++
      (if d.isInfinite then style.infinity else unsigned style d.magnitude)

end IndexedStore.Decimal

namespace IndexedStore.Double

def text (d : Double) : String := Decimal.literal .plain d

end IndexedStore.Double
