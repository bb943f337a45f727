import IndexedStore.Proofs.EntryEdits
import IndexedStore.Proofs.Runs

/-!
# Typed entries

Entries are built blank, from values or as keys, and edited from there on. However that is done, an
entry has as many values as its shape has positions, each of the type there, and so have the keys of
the entries of a store.
-/
namespace IndexedStore

namespace Entry

inductive Built : Entry → Prop where
  | blank (shape : Shape) : Built (blank shape)
  | ofValues (values : List Value) : Built (ofValues values)
  | key {shape : Shape} {fields : List (Nat × Value)} {e : Entry} :
      Entry.key shape fields = .ok e → Built e
  | edited {e : Entry} {edit : Edit} : Built e → (∀ other, edit = .replace other → Built other) →
      Built (edit.attempt e).2

variable {e : Entry} {shape : Shape} {p : Nat} {t : FieldType}

theorem typed_ofValues (values : List Value) : (ofValues values).Typed := rfl

theorem Typed.built (he : e.Typed) : e.Built := by
  obtain ⟨⟨fields⟩, values⟩ := e
  obtain rfl : values.map Value.type = fields := he
  exact .ofValues values

theorem Typed.set {left : Entry} {v : Value} (he : e.Typed) (h : e.set p v = .ok left) :
    left.Typed := by
  rcases he.set?_cases p v with ⟨hfit, heq⟩ | ⟨-, error, heq⟩
  · rw [Entry.set, heq] at h
    obtain rfl := Except.ok.inj h
    exact (conforms_withValue he.conforms hfit rfl).typed
  · rw [Entry.set, heq] at h
    cases h

theorem typed_of_key {fields : List (Nat × Value)} (h : key shape fields = .ok e) : e.Typed := by
  have hblank := (conforms_blank shape).typed
  rw [key] at h
  -- all that the blank entry brings to the induction is that it is well-typed
  generalize blank shape = start at h hblank
  induction fields generalizing start with
  | nil =>
    obtain rfl := Except.ok.inj h
    exact hblank
  | cons field fields ih =>
    obtain ⟨next, hnext, h⟩ := Checked.bind_eq_ok.1 h
    exact ih next h (hblank.set hnext)

theorem Built.typed (h : e.Built) : e.Typed := by
  induction h with
  | blank shape => exact (conforms_blank shape).typed
  | ofValues values => exact typed_ofValues values
  | key h => exact typed_of_key h
  | edited _ _ ih hreplace => exact (Edit.ended_attempt ih hreplace).typed

end Entry

namespace Projection

variable {shape : Shape} {π : Projection} {e : Entry}

/-- A projection gives a key of an entry that has the types of a shape, field by field. -/
def KeyTyped (π : Projection) (shape : Shape) (e : Entry) : Prop :=
  ∃ key, π.project e = .ok key ∧
    List.Forall₂ (fun p v => shape.field? p = some v.type) π.positions key

theorem Inside.keyTyped (hin : π.Inside shape) (he : e.Conforms shape) : π.KeyTyped shape e := by
  refine ⟨_, project_eq (hin.fits he), ?_⟩
  rw [keyOf_eq_map_field, List.forall₂_map_right_iff, List.forall₂_same]
  intro p hp
  obtain ⟨o, ho, rfl⟩ := List.mem_map.1 hp
  have hlt : o < shape.fields.length := hin o ho
  have hfield : shape.field? (o + 1) = some shape.fields[o] := List.getElem?_eq_getElem hlt
  rw [hfield, Entry.type_field he hfield]

end Projection

/-- Whatever entries are built from and however they are edited, they keep one value of the right
type for each position; an edit that fails changes nothing, and one at a position nothing beside it.
So the entries of a store, which takes any such run of edits as an update, have keys of its types. -/
theorem entries_stay_typed :
    (∀ e : Entry, e.Built ↔ e.Typed) ∧
    (∀ e : Entry, e.Built → e.values.length = e.shape.arity ∧
      ∀ p t, e.shape.field? p = some t → ∃ v, e.get p = .ok v ∧ v.type = t) ∧
    (∀ (e : Entry) (edit : Edit), e.Built → edit.Brings Entry.Built →
      edit.Ended e (edit.attempt e).1 (edit.attempt e).2 ∧
      edit.attempt e = match edit.apply e with
        | .ok (left, refusal) => (.ok refusal, left)
        | .error fault => (.error fault, e)) ∧
    (∀ edits : List Edit, (∀ edit ∈ edits, edit.Brings Entry.Built) →
      (∀ e : Entry, e.Built → (Edit.attemptAll edits e).2.Built ∧
        (Edit.attemptAll edits e).1.length = edits.length ∧
        ∀ q, (∀ pair ∈ edits.zip (Edit.attemptAll edits e).1, pair.2 = .ok none →
          pair.1.Spares q) → (Edit.attemptAll edits e).2.get q = e.get q) ∧
      Store.Total Entry.Typed fun e => .ok (Edit.attemptAll edits e).swap) ∧
    (∀ s : Store, s.Reachable → ∀ h e, s.entry? h = some e →
      (∀ positions comparison π, Projection.onPositions s.shape positions comparison = .ok π →
        π.KeyTyped s.shape e) ∧
      ∀ d ∈ s.indices, d.index.projection.KeyTyped s.shape e) := by
  have hbuilt (e : Entry) : e.Built ↔ e.Typed := ⟨Entry.Built.typed, Entry.Typed.built⟩
  have hbrings {edit : Edit} (hedit : edit.Brings Entry.Built) : edit.Brings Entry.Typed :=
    fun other h => (hedit other h).typed
  refine ⟨hbuilt, ?values, ?edit, ?run, ?keys⟩
  case values =>
    intro e he
    refine ⟨he.typed.length, fun p t hp => ⟨_, he.typed.get_eq hp, ?_⟩⟩
    exact Entry.type_field he.typed.conforms hp
  case edit =>
    intro e edit he hedit
    exact ⟨Edit.ended_attempt he.typed (hbrings hedit), Edit.attempt_eq he.typed⟩
  case run =>
    intro edits hedits
    have hspec {e : Entry} (he : e.Typed) :=
      Edit.attemptAll_spec he fun edit hedit => hbrings (hedits edit hedit)
    refine ⟨fun e he => ?_, fun e he => ⟨_, _, rfl, (hspec he).1⟩⟩
    obtain ⟨htyped, hrest⟩ := hspec he.typed
    exact ⟨htyped.built, hrest⟩
  case keys =>
    intro s hs h e he
    have hconforms : e.Conforms s.shape := hs.invariant.conforms he
    refine ⟨fun positions comparison π hπ => ?_, fun d hd => ?_⟩
    · exact (Projection.onPositions_spec hπ).1.keyTyped hconforms
    · exact (hs.invariant.stands d hd).reads.inside.keyTyped hconforms

/-- A value of another type, a position past the end, an amount taken from a number that is unset
yet, and the position before the first. -/
def sampleEdits : List Edit :=
  [.set 2 (.str "x"), .trySet 9 (.int 1), .accumulate .minus 2 (.int 5), .unset 0]

/-- Three of four edits of a key fail; the other one leaves its first position. In a store the entry
that is left has a key of the right types. -/
theorem entries_stay_typed_of_failures : ∃ e left,
    Entry.key ⟨[.int, .int]⟩ [(1, .int 4)] = .ok e ∧
    Edit.attemptAll sampleEdits e = ([.error (.misuse (.typeMismatch 2 .int .str)),
      .ok (some (.positionOutOfRange 9 2)), .ok none,
      .error (.misuse (.positionOutOfRange 0 2))], left) ∧
    left.values = [.int 4, .int (-5)] ∧ left.get 1 = e.get 1 ∧
    ((Edit.set 2 (.str "x")).attempt e).2 = e ∧
    ∃ s h π, Store.Reachable s ∧ s.entry? h = some left ∧
      Projection.onPositions s.shape [2, 1] .ordering = .ok π ∧ π.KeyTyped s.shape left := by
  obtain ⟨-, -, hedit, hrun, hkeys⟩ := entries_stay_typed
  obtain ⟨e, he⟩ : ∃ e, Entry.key ⟨[.int, .int]⟩ [(1, .int 4)] = .ok e := ⟨_, rfl⟩
  have hbrings : ∀ edit ∈ sampleEdits, edit.Brings Entry.Built := by
    simp only [sampleEdits, List.forall_mem_cons, List.not_mem_nil, false_imp_iff, implies_true,
      and_true]
    exact ⟨(by rintro _ ⟨⟩), (by rintro _ ⟨⟩), (by rintro _ ⟨⟩), (by rintro _ ⟨⟩)⟩
  obtain ⟨hentries, htotal⟩ := hrun sampleEdits hbrings
  obtain ⟨hended, -⟩ := hedit e (.set 2 (.str "x")) (.key he) (by rintro _ ⟨⟩)
  obtain ⟨-, -, hget⟩ := hentries e (.key he)
  obtain ⟨s, hs⟩ : ∃ s, Store.create ⟨[.int, .int]⟩ [.ofForm (.hash [1] false)] = .ok s := ⟨_, rfl⟩
  obtain ⟨t, ht⟩ : ∃ t, Store.run [.insert e,
      .update ⟨0, 0⟩ fun e => .ok (Edit.attemptAll sampleEdits e).swap] s = .ok t := by
    obtain rfl := Except.ok.inj he
    obtain rfl := Except.ok.inj hs
    exact ⟨_, rfl⟩
  have hadmissible : Store.Admissible [.insert e,
      .update ⟨0, 0⟩ fun e => .ok (Edit.attemptAll sampleEdits e).swap] s := by
    have hinsert : (Operation.insert e).Allowed s := by
      refine ⟨(Entry.Built.key he).typed, ?_⟩
      obtain rfl := Except.ok.inj hs
      decide
    refine ⟨hinsert, fun t ht => ⟨fun e he => htotal e ?_, fun _ _ => trivial⟩⟩
    exact (((Store.Reachable.created hs).step hinsert ht).invariant.conforms he).typed
  have hr : t.Reachable := (Store.Reachable.created hs).run hadmissible ht
  obtain ⟨hentry, π, hπ⟩ : t.entry? ⟨0, 0⟩ = some (Edit.attemptAll sampleEdits e).2 ∧
      ∃ π, Projection.onPositions t.shape [2, 1] .ordering = .ok π := by
    obtain rfl := Except.ok.inj he
    obtain rfl := Except.ok.inj hs
    obtain rfl := Except.ok.inj ht
    exact ⟨rfl, _, rfl⟩
  obtain ⟨hpositions, -⟩ := hkeys t hr ⟨0, 0⟩ _ hentry
  refine ⟨e, _, he, ?_, ?_, hget 1 ?_, hended.unchanged ?_, t, ⟨0, 0⟩, π, hr, hentry, hπ,
    hpositions _ _ π hπ⟩
  all_goals
    obtain rfl := Except.ok.inj he
    decide

end IndexedStore
