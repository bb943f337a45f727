import IndexedStore.Proofs.EntryWrites

/-!
# Edits of entries

Entries are edited position by position or as a whole. An edit that goes through writes a value of
the type of its position and leaves the other positions alone; one that fails leaves the entry as it
was. So every run of edits leaves a well-typed entry.
-/
namespace IndexedStore

theorem Sign.type_accumulate (sign : Sign) {v amount : Value} (h : amount.type = v.type) :
    (sign.accumulate v amount).type = v.type := by
  cases v with
  | unset t => cases sign <;> cases amount <;> first | exact h | rfl
  | int | long | double | str | date | bool => cases amount <;> rfl

/-! ## Steps in place

A step in place leaves what the plain operation answers. Where that one has no answer, it leaves the
entry as it was: all checks come before the write. -/

namespace InPlace

variable {e : Entry} {p : Nat} {v : Value} {sign : Sign}

section Steps

variable {α β : Type} {read : Entry → Checked α} {next : α → InPlace β}

theorem get_bind {next : Entry → InPlace α} : (get >>= next) e = next e e := rfl

theorem look_eq : look read e = match read e with
    | .ok x => .ok x e
    | .error fault => .error fault e := by
  rw [look, get_bind]
  cases read e <;> rfl

theorem look_bind_ok {x : α} (h : read e = .ok x) : (look read >>= next) e = next x e := by
  change EStateM.bind _ _ _ = _
  rw [EStateM.bind, look_eq, h]

theorem look_bind_error {fault : Fault} (h : read e = .error fault) :
    (look read >>= next) e = .error fault e := by
  change EStateM.bind _ _ _ = _
  rw [EStateM.bind, look_eq, h]

/-- What a step in place comes to if it leaves the answer of a plain operation, or the entry as it
was. -/
def settle (e : Entry) : Checked (Entry × α) → EStateM.Result Fault Entry α
  | .ok (left, x) => .ok x left
  | .error fault => .error fault e

theorem map_settle {write : InPlace α} {x : Checked Entry} {a : α} {b : β}
    (h : write e = settle e ((·, a) <$> x)) :
    ((fun _ => b) <$> write : InPlace β) e = settle e ((·, b) <$> x) := by
  change EStateM.map _ _ _ = _
  rw [EStateM.map, h]
  cases x <;> rfl

end Steps

theorem trySet_eq (he : e.Typed) : trySet p v e = settle e ((Edit.trySet p v).apply e) := by
  rw [trySet, get_bind, Edit.apply]
  cases hp : e.shape.field? p with
  | none =>
    rw [he.offset?_of_none hp, he.set?_of_none hp]
    rfl
  | some t =>
    obtain ⟨hoffset, htype, -⟩ := he.reads hp
    rw [hoffset, he.set?_eq hp]
    refine (look_bind_ok htype).trans ?_
    by_cases hv : v.type = t
    · rw [if_pos hv, if_pos hv]
      rfl
    · rw [if_neg hv, if_neg hv]
      rfl

theorem set_eq (he : e.Typed) : set p v e = settle e ((·, ()) <$> e.set p v) := by
  change EStateM.bind _ _ _ = _
  rw [EStateM.bind, trySet_eq he, Edit.apply, Entry.set]
  cases e.set? p v <;> rfl

theorem unset_eq : unset p e = settle e ((·, ()) <$> e.unset p) := by
  rw [unset, Entry.unset]
  cases hoffset : Entry.demand (e.offset? p) with
  | error fault => exact look_bind_error hoffset
  | ok o =>
    rw [look_bind_ok hoffset, Checked.ok_bind]
    cases htype : itemAt e.shape.fields o with
    | error fault => exact look_bind_error htype
    | ok t => exact look_bind_ok htype

theorem accumulate_eq :
    accumulate sign p v e = settle e ((·, ()) <$> e.accumulate sign p v) := by
  rw [accumulate, Entry.accumulate]
  cases hoffset : Entry.demand (e.offset? p) with
  | error fault => exact look_bind_error hoffset
  | ok o =>
    rw [look_bind_ok hoffset, Checked.ok_bind]
    cases htype : itemAt e.shape.fields o with
    | error fault => exact look_bind_error htype
    | ok t =>
      rw [look_bind_ok htype, Checked.ok_bind]
      by_cases hv : t.isNumeric = true ∧ v.type = t
      · rw [if_pos hv, if_pos hv]
        cases hvalue : itemAt e.values o with
        | error fault => exact look_bind_error hvalue
        | ok w => exact look_bind_ok hvalue
      · rw [if_neg hv, if_neg hv]
        rfl

end InPlace

namespace Edit

variable {e left : Entry} {edit : Edit} {edits : List Edit} {outcome : Checked (Option Error)}

/-- An edit in place leaves what the plain edit answers, or the entry as it was. -/
theorem inPlace_eq (he : e.Typed) : edit.inPlace e = InPlace.settle e (edit.apply e) := by
  cases edit with
  | set p v => exact InPlace.map_settle (InPlace.set_eq he)
  | trySet p v => exact InPlace.trySet_eq he
  | unset p => exact InPlace.map_settle InPlace.unset_eq
  | accumulate sign p amount => exact InPlace.map_settle InPlace.accumulate_eq
  | replace other => rfl

theorem attempt_eq (he : e.Typed) : edit.attempt e = match edit.apply e with
    | .ok (left, refusal) => (.ok refusal, left)
    | .error fault => (.error fault, e) := by
  rw [attempt, inPlace_eq he]
  cases edit.apply e <;> rfl

/-! ## What an edit does -/

/-- The position an edit writes to; none if it replaces the whole entry. -/
def position? : Edit → Option Nat
  | .set p _ | .trySet p _ | .unset p | .accumulate _ p _ => some p
  | .replace _ => none

/-- An entry takes an edit at a position of its shape that brings a value of the type there, an
amount only where the type is numeric. -/
def Suits (e : Entry) : Edit → Prop
  | .set p v | .trySet p v => e.shape.field? p = some v.type
  | .unset p => e.shape.field? p ≠ none
  | .accumulate _ p amount => e.shape.field? p = some amount.type ∧ amount.type.isNumeric = true
  | .replace _ => True

/-- An edit fails and leaves the entry, or it writes a value of the type of its position, or it puts
another entry in place. -/
inductive Ends (edit : Edit) (e : Entry) : Checked (Option Error) → Entry → Prop where
  | failed {outcome : Checked (Option Error)} (hmisfit : ¬edit.Suits e)
      (houtcome : outcome ≠ .ok none) : Ends edit e outcome e
  | wrote {p : Nat} {v : Value} (hsuits : edit.Suits e) (hposition : edit.position? = some p)
      (htype : e.shape.field? p = some v.type) : Ends edit e (.ok none) (e.withValue (p - 1) v)
  | replaced {other : Entry} (h : edit = .replace other) : Ends edit e (.ok none) other

theorem ends_attempt (he : e.Typed) : edit.Ends e (edit.attempt e).1 (edit.attempt e).2 := by
  rw [attempt_eq he]
  cases edit with
  | set p v =>
    rw [apply, Entry.set]
    rcases he.set?_cases p v with ⟨hfit, heq⟩ | ⟨hmisfit, error, heq⟩
    · rw [heq]
      exact .wrote hfit rfl hfit
    · rw [heq]
      exact .failed hmisfit (by rintro ⟨⟩)
  | trySet p v =>
    rw [apply]
    rcases he.set?_cases p v with ⟨hfit, heq⟩ | ⟨hmisfit, error, heq⟩
    · rw [heq]
      exact .wrote hfit rfl hfit
    · rw [heq]
      exact .failed hmisfit (by rintro ⟨⟩)
  | unset p =>
    rw [apply]
    rcases he.unset_cases p with ⟨t, hp, heq⟩ | ⟨hp, fault, heq⟩
    · rw [heq]
      exact .wrote (by rw [Suits, hp]; rintro ⟨⟩) rfl hp
    · rw [heq]
      exact .failed (fun h => h hp) (by rintro ⟨⟩)
  | accumulate sign p amount =>
    rw [apply]
    rcases he.accumulate_cases sign p amount with ⟨hfit, heq⟩ | ⟨hmisfit, fault, heq⟩
    · have htype := Entry.type_field he.conforms hfit.1
      rw [heq]
      refine .wrote hfit rfl ?_
      rw [sign.type_accumulate htype.symm, htype, hfit.1]
    · rw [heq]
      exact .failed hmisfit (by rintro ⟨⟩)
  | replace other => exact .replaced rfl

/-- An edit leaves a position alone if it writes to another one. -/
def Spares (q : Nat) (edit : Edit) : Prop := edit.position? ≠ none ∧ edit.position? ≠ some q

instance (q : Nat) (edit : Edit) : Decidable (edit.Spares q) :=
  inferInstanceAs (Decidable (_ ∧ _))

/-- Whatever an edit brings, if it brings a whole entry, has some property. -/
def Brings (good : Entry → Prop) (edit : Edit) : Prop := ∀ other, edit = .replace other → good other

structure Ended (edit : Edit) (e : Entry) (outcome : Checked (Option Error)) (left : Entry) :
    Prop where
  typed : left.Typed
  through : outcome = .ok none ↔ edit.Suits e
  unchanged : outcome ≠ .ok none → left = e
  shape_eq : edit.position? ≠ none → left.shape = e.shape
  get_eq : ∀ q, edit.Spares q → left.get q = e.get q

theorem Ends.ended (h : edit.Ends e outcome left) (he : e.Typed) (hedit : edit.Brings Entry.Typed) :
    edit.Ended e outcome left := by
  cases h with
  | failed hmisfit houtcome =>
    exact ⟨he, iff_of_false houtcome hmisfit, fun _ => rfl, fun _ => rfl, fun _ _ => rfl⟩
  | @wrote p v hsuits hposition htype =>
    refine ⟨(Entry.conforms_withValue he.conforms htype rfl).typed, iff_of_true rfl hsuits,
      fun h => absurd rfl h, fun _ => rfl, ?_⟩
    rintro q ⟨-, hother⟩
    refine Entry.get_withValue_of_ne (Entry.lt_of_field? htype).1 ?_
    rintro rfl
    exact hother hposition
  | replaced h =>
    subst h
    refine ⟨hedit _ rfl, iff_of_true rfl trivial, fun h => absurd rfl h, fun h => absurd rfl h, ?_⟩
    rintro q ⟨hposition, -⟩
    exact absurd rfl hposition

theorem ended_attempt (he : e.Typed) (hedit : edit.Brings Entry.Typed) :
    edit.Ended e (edit.attempt e).1 (edit.attempt e).2 :=
  (ends_attempt he).ended he hedit

def Fits (shape : Shape) (edit : Edit) : Prop := edit.position? ≠ none ∧ edit.Suits (.blank shape)

theorem Fits.suits {shape : Shape} (h : edit.Fits shape) (he : e.shape = shape) : edit.Suits e := by
  obtain ⟨-, hsuits⟩ := h
  subst he
  cases edit <;> exact hsuits

theorem exists_apply (he : e.Typed) (hposition : edit.position? ≠ none) (hsuits : edit.Suits e) :
    ∃ left outcome, edit.apply e = .ok (left, outcome) ∧ left.Conforms e.shape := by
  have hedit : edit.Brings Entry.Typed := by
    rintro other rfl
    exact absurd rfl hposition
  obtain ⟨htyped, hthrough, -, hshape, -⟩ := ended_attempt he hedit
  rw [attempt_eq he] at htyped hthrough hshape
  cases happly : edit.apply e with
  | error fault =>
    rw [happly] at hthrough
    cases hthrough.2 hsuits
  | ok pair =>
    rw [happly] at htyped hshape
    exact ⟨pair.1, pair.2, rfl, htyped, hshape hposition⟩

theorem exists_applyAll {shape : Shape} (hedits : ∀ edit ∈ edits, edit.Fits shape)
    (he : e.Conforms shape) :
    ∃ left outcomes, applyAll edits e = .ok (left, outcomes) ∧ left.Conforms shape := by
  induction edits generalizing e with
  | nil => exact ⟨e, [], rfl, he⟩
  | cons edit edits ih =>
    obtain ⟨hfits, hedits⟩ := List.forall_mem_cons.1 hedits
    obtain ⟨next, outcome, happly, hnext⟩ :=
      exists_apply he.typed hfits.1 (hfits.suits he.shape_eq)
    obtain ⟨left, outcomes, hall, hleft⟩ := ih hedits (he.shape_eq ▸ hnext)
    refine ⟨left, outcome :: outcomes, ?_, hleft⟩
    rw [applyAll, happly, Checked.ok_bind]
    dsimp only
    rw [hall]
    rfl

theorem typed_of_applyAll {outcomes : List (Option Error)} (he : e.Typed)
    (hedits : ∀ edit ∈ edits, edit.Brings Entry.Typed)
    (h : applyAll edits e = .ok (left, outcomes)) : left.Typed := by
  induction edits generalizing e outcomes with
  | nil =>
    obtain ⟨rfl, -⟩ := Prod.mk.inj (Except.ok.inj h)
    exact he
  | cons edit edits ih =>
    obtain ⟨hedit, hedits⟩ := List.forall_mem_cons.1 hedits
    obtain ⟨⟨next, outcome⟩, happly, h⟩ := Checked.bind_eq_ok.1 h
    obtain ⟨⟨last, rest⟩, hall, h⟩ := Checked.bind_eq_ok.1 h
    obtain ⟨rfl, -⟩ := Prod.mk.inj (Except.ok.inj h)
    have hended := ended_attempt he hedit
    rw [attempt_eq he, happly] at hended
    exact ih hended.typed hedits hall

/-- A run of edits leaves a well-typed entry, whichever of them fail, and the positions that none of
the others writes to as they were. -/
theorem attemptAll_spec (he : e.Typed) (hedits : ∀ edit ∈ edits, edit.Brings Entry.Typed) :
    (attemptAll edits e).2.Typed ∧ (attemptAll edits e).1.length = edits.length ∧
      ∀ q, (∀ pair ∈ edits.zip (attemptAll edits e).1, pair.2 = .ok none → pair.1.Spares q) →
        (attemptAll edits e).2.get q = e.get q := by
  induction edits generalizing e with
  | nil => exact ⟨he, rfl, fun _ _ => rfl⟩
  | cons edit edits ih =>
    obtain ⟨hedit, hedits⟩ := List.forall_mem_cons.1 hedits
    have hended := ended_attempt he hedit
    obtain ⟨htyped, hlength, hget⟩ := ih hended.typed hedits
    refine ⟨htyped, congrArg (· + 1) hlength, fun q hq => ?_⟩
    obtain ⟨hhead, htail⟩ := List.forall_mem_cons.1 hq
    refine (hget q htail).trans ?_
    -- only an edit that goes through has to spare the position; any other left the whole entry
    by_cases hthrough : (edit.attempt e).1 = .ok none
    · exact hended.get_eq q (hhead hthrough)
    · rw [hended.unchanged hthrough]

end Edit

end IndexedStore
