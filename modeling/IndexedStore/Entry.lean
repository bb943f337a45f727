import IndexedStore.Fault

/-!
# Entries

A record of one shape. Positions count from one. Writes check the position and the type, so that an
entry keeps the types of its shape; amounts can be added to numeric positions, where integers stop
at the ends of their range.
-/
namespace IndexedStore

structure Entry where
  shape : Shape
  values : List Value
  deriving DecidableEq, Repr

namespace Entry

def blank (shape : Shape) : Entry := ⟨shape, shape.fields.map .unset⟩

def ofValues (values : List Value) : Entry := ⟨⟨values.map Value.type⟩, values⟩

def arity (e : Entry) : Nat := e.values.length

def offset? (e : Entry) (position : Nat) : Except Error Nat :=
  if position = 0 ∨ e.arity < position then .error (.positionOutOfRange position e.arity)
  else .ok (position - 1)

/-- Turns an error into a fault, for the unchecked forms of the operations below. -/
def demand {α : Type} : Except Error α → Checked α
  | .ok x => .ok x
  | .error e => .error (.misuse e)

def get (e : Entry) (position : Nat) : Checked Value := do
  itemAt e.values (← demand (e.offset? position))

def isUnset (e : Entry) (position : Nat) : Checked Bool := Value.isUnset <$> e.get position

def withValue (e : Entry) (offset : Nat) (v : Value) : Entry :=
  { e with values := e.values.set offset v }

def set? (e : Entry) (position : Nat) (v : Value) : Except Error Entry := do
  let offset ← e.offset? position
  match e.shape.fields[offset]? with
  | some expected =>
    if v.type = expected then .ok (e.withValue offset v)
    else .error (.typeMismatch position expected v.type)
  | none => .error (.positionOutOfRange position e.shape.arity)

def set (e : Entry) (position : Nat) (v : Value) : Checked Entry := demand (e.set? position v)

def unset (e : Entry) (position : Nat) : Checked Entry := do
  let offset ← demand (e.offset? position)
  return e.withValue offset (.unset (← itemAt e.shape.fields offset))

/-- A lookup key: the given positions set, all others unset. -/
def key (shape : Shape) (fields : List (Nat × Value)) : Checked Entry :=
  fields.foldlM (fun e field => e.set field.1 field.2) (blank shape)

end Entry

inductive Sign where
  | plus | minus
  deriving DecidableEq, Repr

namespace Sign

/-- The integer after an amount, stopped at the ends of a range of `bits` bits. -/
def saturate (sign : Sign) (bits : Nat) (current amount : Int) : Int :=
  let exact := match sign with
    | .plus => current + amount
    | .minus => current - amount
  max (-Int.pow 2 (bits - 1)) (min exact (Int.pow 2 (bits - 1) - 1))

/-- The number after an amount. An unset number counts as zero; an unset amount changes nothing. -/
def accumulate (sign : Sign) : Value → Value → Value
  | .int c, .int d => .int (Int32.ofInt (sign.saturate 32 c.toInt d.toInt))
  | .long c, .long d => .long (Int64.ofInt (sign.saturate 64 c.toInt d.toInt))
  | .date c, .date d => .date (Int64.ofInt (sign.saturate 64 c.toInt d.toInt))
  | .double c, .double d =>
    .double (match sign with
      | .plus => c.add d
      | .minus => c.sub d)
  | .unset t, amount =>
    match sign, amount with
    | .plus, _ => amount
    | .minus, .int d => .int (Int32.ofInt (sign.saturate 32 0 d.toInt))
    | .minus, .long d => .long (Int64.ofInt (sign.saturate 64 0 d.toInt))
    | .minus, .date d => .date (Int64.ofInt (sign.saturate 64 0 d.toInt))
    | .minus, .double d => .double d.neg
    | .minus, _ => .unset t
  | current, _ => current

end Sign

namespace Entry

def accumulate (sign : Sign) (e : Entry) (position : Nat) (amount : Value) : Checked Entry := do
  let offset ← demand (e.offset? position)
  let type ← itemAt e.shape.fields offset
  if type.isNumeric ∧ amount.type = type then
    return e.withValue offset (sign.accumulate (← itemAt e.values offset) amount)
  else
    .error (.accumulation amount.type type position)

def same (a b : Entry) : Bool :=
  a.shape = b.shape ∧ a.arity = b.arity ∧ (a.values.zip b.values).all fun (x, y) => x.same y

def isClose (a b : Entry) : Bool :=
  a.shape = b.shape ∧ (a.values.zip b.values).all fun (x, y) => x.isClose y

def text (e : Entry) : String :=
  e.shape.signature ++ Text.bracketed "(" ")" (e.values.map Value.text)

end Entry

inductive Edit where
  | set (position : Nat) (value : Value)
  | trySet (position : Nat) (value : Value)
  | unset (position : Nat)
  | accumulate (sign : Sign) (position : Nat) (amount : Value)
  | replace (entry : Entry)
  deriving DecidableEq, Repr

namespace Edit

/-- The entry after an edit, and the error of a checked write that was refused. -/
def apply (edit : Edit) (e : Entry) : Checked (Entry × Option Error) :=
  match edit with
  | .set p v => (·, none) <$> e.set p v
  | .trySet p v =>
    match e.set? p v with
    | .ok e => .ok (e, none)
    | .error error => .ok (e, some error)
  | .unset p => (·, none) <$> e.unset p
  | .accumulate sign p amount => (·, none) <$> e.accumulate sign p amount
  | .replace e => .ok (e, none)

def applyAll : List Edit → Entry → Checked (Entry × List (Option Error))
  | [], e => .ok (e, [])
  | edit :: edits, e => do
    let (e, outcome) ← edit.apply e
    let (e, outcomes) ← applyAll edits e
    return (e, outcome :: outcomes)

end Edit

/-! ## In place

The edits as steps on the entry itself. A step leaves an entry behind also where it ends in a
fault. -/

abbrev InPlace := EStateM Fault Entry

namespace InPlace

def look {α : Type} (read : Entry → Checked α) : InPlace α := do
  match read (← get) with
  | .ok x => return x
  | .error fault => throw fault

def write (offset : Nat) (v : Value) : InPlace Unit := modify (·.withValue offset v)

def trySet (position : Nat) (v : Value) : InPlace (Option Error) := do
  match (← get).offset? position with
  | .error error => return some error
  | .ok offset =>
    let expected ← look fun e => itemAt e.shape.fields offset
    if v.type = expected then
      write offset v
      return none
    else
      return some (.typeMismatch position expected v.type)

def set (position : Nat) (v : Value) : InPlace Unit := do
  if let some error ← trySet position v then throw (.misuse error)

def unset (position : Nat) : InPlace Unit := do
  let offset ← look fun e => Entry.demand (e.offset? position)
  write offset (.unset (← look fun e => itemAt e.shape.fields offset))

def accumulate (sign : Sign) (position : Nat) (amount : Value) : InPlace Unit := do
  let offset ← look fun e => Entry.demand (e.offset? position)
  let type ← look fun e => itemAt e.shape.fields offset
  if type.isNumeric ∧ amount.type = type then
    write offset (sign.accumulate (← look fun e => itemAt e.values offset) amount)
  else
    throw (.accumulation amount.type type position)

end InPlace

namespace Edit

def inPlace : Edit → InPlace (Option Error)
  | .set p v => (fun _ => none) <$> InPlace.set p v
  | .trySet p v => InPlace.trySet p v
  | .unset p => (fun _ => none) <$> InPlace.unset p
  | .accumulate sign p amount => (fun _ => none) <$> InPlace.accumulate sign p amount
  | .replace e => (fun _ => none) <$> MonadState.set e

/-- How an edit ends, and the entry it leaves behind. It goes through, is refused with an error, or
ends in a fault. -/
def attempt (edit : Edit) (e : Entry) : Checked (Option Error) × Entry :=
  match edit.inPlace e with
  | .ok refusal left => (.ok refusal, left)
  | .error fault left => (.error fault, left)

/-- Edits in order, each on what the one before left, however that one ended. -/
def attemptAll : List Edit → Entry → List (Checked (Option Error)) × Entry
  | [], e => ([], e)
  | edit :: edits, e =>
    let (outcome, left) := edit.attempt e
    let (outcomes, left) := attemptAll edits left
    (outcome :: outcomes, left)

end Edit
end IndexedStore
