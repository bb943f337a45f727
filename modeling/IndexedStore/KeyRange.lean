/-!
# Key ranges

The keys an ordered lookup is to visit, between two edges.
-/
namespace IndexedStore

inductive Edge (κ : Type) where
  | unbounded
  | included (key : κ)
  | excluded (key : κ)
  deriving DecidableEq, Repr

namespace Edge

variable {κ : Type}

def ofKey (key : κ) (exclusive : Bool) : Edge κ :=
  if exclusive then .excluded key else .included key

def key? : Edge κ → Option κ
  | .unbounded => none
  | .included key | .excluded key => some key

def admitsAbove (compare : κ → κ → Ordering) (edge : Edge κ) (key : κ) : Bool :=
  match edge with
  | .unbounded => true
  | .included bound => (compare key bound).isGE
  | .excluded bound => (compare key bound).isGT

def admitsBelow (compare : κ → κ → Ordering) (edge : Edge κ) (key : κ) : Bool :=
  match edge with
  | .unbounded => true
  | .included bound => (compare key bound).isLE
  | .excluded bound => (compare key bound).isLT

end Edge

inductive KeyRange (κ : Type) where
  | all
  | only (key : κ)
  | above (low : κ) (exclusive : Bool)
  | below (high : κ) (exclusive : Bool)
  | between (low high : κ) (lowExclusive highExclusive : Bool)
  deriving DecidableEq, Repr

namespace KeyRange

variable {κ υ : Type}

def isOnly : KeyRange κ → Bool
  | .only _ => true
  | _ => false

def isAll : KeyRange κ → Bool
  | .all => true
  | _ => false

def lower : KeyRange κ → Edge κ
  | .all | .below _ _ => .unbounded
  | .only key => .included key
  | .above low exclusive => .ofKey low exclusive
  | .between low _ exclusive _ => .ofKey low exclusive

def upper : KeyRange κ → Edge κ
  | .all | .above _ _ => .unbounded
  | .only key => .included key
  | .below high exclusive => .ofKey high exclusive
  | .between _ high _ exclusive => .ofKey high exclusive

def contains (compare : κ → κ → Ordering) (range : KeyRange κ) (key : κ) : Bool :=
  range.lower.admitsAbove compare key && range.upper.admitsBelow compare key

def map (f : κ → υ) : KeyRange κ → KeyRange υ
  | .all => .all
  | .only key => .only (f key)
  | .above low exclusive => .above (f low) exclusive
  | .below high exclusive => .below (f high) exclusive
  | .between low high lowExclusive highExclusive =>
    .between (f low) (f high) lowExclusive highExclusive

/-- The range with each bound replaced by the answer of an operation, low bound first. -/
def mapM {m : Type → Type} [Monad m] (f : κ → m υ) : KeyRange κ → m (KeyRange υ)
  | .all => pure .all
  | .only key => return .only (← f key)
  | .above low exclusive => return .above (← f low) exclusive
  | .below high exclusive => return .below (← f high) exclusive
  | .between low high lowExclusive highExclusive => do
    let low ← f low
    let high ← f high
    return .between low high lowExclusive highExclusive

def same (eqv : κ → κ → Bool) : KeyRange κ → KeyRange κ → Bool
  | .all, .all => true
  | .only a, .only b => eqv a b
  | .above a x, .above b y => eqv a b && x == y
  | .below a x, .below b y => eqv a b && x == y
  | .between a c x u, .between b d y v => eqv a b && eqv c d && x == y && u == v
  | _, _ => false

end KeyRange
end IndexedStore
