import IndexedStore.Value.Basic

/-!
# Tagged form of values

A value as one string: the code of its type, then its payload. `decode?` reads what `encode` writes.
The sentinel of a type is `U` and the code of the type; a double is the sixteen hexadecimal digits
of its bits, every NaN alike.
-/
namespace IndexedStore.Value

def hexDigits (width n : Nat) : String :=
  let digits := Nat.toDigits 16 n
  String.ofList (List.replicate (width - digits.length) '0' ++ digits)

def encode : Value → String
  | .int v => "I" ++ toString v.toInt
  | .long v => "L" ++ toString v.toInt
  | .double v => "D" ++ if v.isNaN then "nan" else hexDigits 16 v.bits.toNat
  | .str v => "S" ++ v
  | .date v => "T" ++ toString v.toInt
  | .bool v => "B" ++ if v then "true" else "false"
  | .unset t => "U" ++ t.code.toString

def digit? (c : Char) : Option Nat :=
  if '0' ≤ c ∧ c ≤ '9' then some (c.toNat - '0'.toNat) else none

def natural? : List Char → Option Nat
  | [] => none
  | cs => cs.foldlM (fun n c => (digit? c).map (10 * n + ·)) 0

def integer? : List Char → Option Int
  | '-' :: cs => (natural? cs).map fun n => -(n : Int)
  | '+' :: cs => (natural? cs).map fun n => (n : Int)
  | cs => (natural? cs).map fun n => (n : Int)

def int32? (cs : List Char) : Option Int32 :=
  (integer? cs).bind fun n =>
    if -0x80000000 ≤ n ∧ n < 0x80000000 then some (Int32.ofInt n) else none

def int64? (cs : List Char) : Option Int64 :=
  (integer? cs).bind fun n =>
    if -0x8000000000000000 ≤ n ∧ n < 0x8000000000000000 then some (Int64.ofInt n) else none

/-- A decimal word of 64 bits, with an optional plus sign. -/
def word64? (cs : List Char) : Option UInt64 :=
  (natural? (if cs.head? = some '+' then cs.tail else cs)).bind fun n =>
    if n < UInt64.size then some (UInt64.ofNat n) else none

def hexDigit? (c : Char) : Option Nat :=
  if '0' ≤ c ∧ c ≤ '9' then some (c.toNat - '0'.toNat)
  else if 'a' ≤ c ∧ c ≤ 'f' then some (c.toNat - 'a'.toNat + 10)
  else none

def double? (cs : List Char) : Option Double :=
  if cs = ['n', 'a', 'n'] then some ⟨0x7ff8000000000000⟩
  else if cs.length = 16 then
    (cs.foldlM (fun n c => (hexDigit? c).map (16 * n + ·)) 0).map fun n => ⟨UInt64.ofNat n⟩
  else none

def decode? (s : String) : Option Value :=
  match s.toList with
  | 'I' :: cs => (int32? cs).map .int
  | 'L' :: cs => (int64? cs).map .long
  | 'D' :: cs => (double? cs).map .double
  | 'S' :: cs => some (.str (String.ofList cs))
  | 'T' :: cs => (int64? cs).map .date
  | ['B', 't', 'r', 'u', 'e'] => some (.bool true)
  | ['B', 'f', 'a', 'l', 's', 'e'] => some (.bool false)
  | ['U', c] => (FieldType.ofCode? c).map .unset
  | _ => none

end IndexedStore.Value
