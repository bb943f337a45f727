import IndexedStore.Proofs.ContentComparison
import IndexedStore.Proofs.KeyRanges
import IndexedStore.Proofs.Runs

/-!
# Runs without a fault

A store whose layout was accepted meets no fault, whatever it is asked to do or asked about, as long
as every call comes with what it asks for: a well-typed entry, a probe or bounds of its shape, a
slot it has, a mutation that answers and a slot number for a new entry. In particular no update
finds a place that does not take its handle back, no count falls below zero, and no address leaves
its grid. Inside the array of a heap positions carry their bound in their type.
-/
namespace IndexedStore

namespace KeyRows

variable {r : KeyRows} {source : Source} {shape : Shape} {probe : Entry} (hf : r.Filed source)
  (hs : source.Conforms shape) (hp : probe.Conforms shape) (hfit : r.projection.Fits probe)
include hf hs hp hfit

theorem exists_first : ∃ found, r.first probe = .ok found := by
  rw [first, Projection.project_eq hfit, Checked.ok_bind, hf.reached_eq (types_rows hf hs hp)]
  exact ⟨_, rfl⟩

theorem exists_last : ∃ found, r.last probe = .ok found := by
  rw [last, Projection.project_eq hfit, Checked.ok_bind, hf.reached_eq (types_rows hf hs hp)]
  split
  · exact ⟨_, rfl⟩
  · exact ⟨_, rfl⟩

end KeyRows

namespace Store

variable {s t other : Store} {probe : Entry} {slot : Nat}

/-! ## Lookups in order -/

theorem exists_tree (hslot : slot < s.indices.length) : ∃ result, s.tree slot = .ok result ∧
    ∀ rows, result = .ok rows → ∃ d ∈ s.indices, d.index = .tree rows := by
  have hd := List.getElem?_eq_getElem hslot
  rw [tree, declared_eq hd, Checked.ok_bind]
  refine ⟨_, rfl, fun rows hrows => ⟨_, List.mem_of_getElem? hd, ?_⟩⟩
  split at hrows
  next index hindex =>
    rw [hindex, Except.ok.inj hrows]
  next => cases hrows

section Ordered

variable (hs : s.Invariant) (hslot : slot < s.indices.length)
include hs hslot

/-- What is read of the rows at a slot is answered, if it is for all rows that stand where they
belong. -/
theorem exists_read {α β : Type} {read : KeyRows → Checked α}
    (hread : ∀ rows : KeyRows, rows.Filed s.source → rows.projection.Inside s.shape →
      ∃ found, read rows = .ok found) (f : KeyRows → α → β) :
    ∃ answer : Except Error β, (do
      match ← s.tree slot with
      | .ok rows => return .ok (f rows (← read rows))
      | .error e => return .error e) = Except.ok answer := by
  obtain ⟨result, htree, hrows⟩ := exists_tree hslot
  rw [htree, Checked.ok_bind]
  cases result with
  | error err => exact ⟨.error err, rfl⟩
  | ok rows =>
    obtain ⟨d, hd, hindex⟩ := hrows rows rfl
    have hfiled := (hs.sound d hd).filed
    have hinside := (hs.stands d hd).reads.inside
    rw [hindex] at hfiled hinside
    obtain ⟨found, hfound⟩ := hread rows hfiled hinside
    dsimp only
    rw [hfound]
    exact ⟨.ok (f rows found), rfl⟩

theorem exists_range {range : KeyRange Entry} (hr : ∀ bound ∈ range.keys, bound.Conforms s.shape) :
    ∃ answer, s.range slot range = .ok answer := by
  rw [Store.range]
  exact exists_read hs hslot (fun rows _ hinside => KeyRange.exists_mapM fun bound hbound =>
    ⟨_, Projection.project_eq (hinside.fits (hr bound hbound))⟩) fun rows keys =>
      s.resolve (rows.range keys)

variable (hp : probe.Conforms s.shape)
include hp

theorem exists_first : ∃ answer, s.first slot probe = .ok answer := by
  rw [first, checkKey, if_pos hp.shape_eq, Checked.ok_bind]
  exact exists_read hs hslot (fun rows hf hinside =>
    rows.exists_first hf hs.conforms hp (hinside.fits hp)) fun _ found => found.bind s.entry?

theorem exists_last : ∃ answer, s.last slot probe = .ok answer := by
  rw [last, checkKey, if_pos hp.shape_eq, Checked.ok_bind]
  exact exists_read hs hslot (fun rows hf hinside =>
    rows.exists_last hf hs.conforms hp (hinside.fits hp)) fun _ found => found.bind s.entry?

end Ordered

theorem exists_sameContents (hs : s.Invariant) (ho : other.Invariant) :
    ∃ answer, s.sameContents other = .ok answer := by
  by_cases hshape : s.shape = other.shape
  · exact ⟨_, sameContents_eq hs ho hshape⟩
  · exact ⟨false, by rw [sameContents, if_pos (.inl hshape)]; rfl⟩

end Store

/-! ## Calls -/

inductive Lookup where
  | declared (slot : Nat)
  | getHandle (slot : Nat) (probe : Entry)
  | get (slot : Nat) (probe : Entry)
  | slice (slot : Nat) (probe : Entry)
  | first (slot : Nat) (probe : Entry)
  | last (slot : Nat) (probe : Entry)
  | range (slot : Nat) (bounds : KeyRange Entry)
  | peek (order : Direction) (probe : Entry) (group : List Nat) (target : Nat)
  | sameContents (other : Store)

namespace Lookup

def ask (s : Store) : Lookup → Checked Unit
  | declared slot => discard (s.declared slot)
  | getHandle slot probe => discard (s.getHandle slot probe)
  | get slot probe => discard (s.get slot probe)
  | slice slot probe => discard (s.slice slot probe)
  | first slot probe => discard (s.first slot probe)
  | last slot probe => discard (s.last slot probe)
  | range slot bounds => discard (s.range slot bounds)
  | peek order probe group target => discard (s.peek order probe group target)
  | sameContents other => discard (s.sameContents other)

/-- What a question asks for: a slot of the store, and probes and bounds of its shape. Contents are
compared with those of a store that has a history of its own, of whatever shape. -/
def Allowed (s : Store) : Lookup → Prop
  | declared slot => slot < s.indices.length
  | getHandle slot probe | get slot probe | slice slot probe | first slot probe | last slot probe =>
    slot < s.indices.length ∧ probe.Conforms s.shape
  | range slot bounds => slot < s.indices.length ∧ ∀ bound ∈ bounds.keys, bound.Conforms s.shape
  | peek _ probe _ _ => probe.Conforms s.shape
  | sameContents other => other.Reachable

theorem discard_eq {α : Type} {x : Checked α} (h : ∃ answer, x = .ok answer) :
    discard x = .ok () := by
  obtain ⟨answer, rfl⟩ := h
  rfl

theorem ask_eq {s : Store} (hs : s.Invariant) {lookup : Lookup} (ha : lookup.Allowed s) :
    lookup.ask s = .ok () := by
  cases lookup with
  | declared slot => exact discard_eq ⟨_, Store.declared_eq (List.getElem?_eq_getElem ha)⟩
  | getHandle slot probe =>
    exact discard_eq (Store.exists_getHandle hs ha.2 (List.getElem?_eq_getElem ha.1))
  | get slot probe => exact discard_eq (Store.exists_get hs ha.2 (List.getElem?_eq_getElem ha.1))
  | slice slot probe =>
    exact discard_eq ⟨_, Store.slice_eq hs ha.2 (List.getElem?_eq_getElem ha.1)⟩
  | first slot probe => exact discard_eq (Store.exists_first hs ha.1 ha.2)
  | last slot probe => exact discard_eq (Store.exists_last hs ha.1 ha.2)
  | range slot bounds => exact discard_eq (Store.exists_range hs ha.1 ha.2)
  | peek order probe group target => exact discard_eq (Store.exists_peek hs ha order group target)
  | sameContents other => exact discard_eq (Store.exists_sameContents hs ha.invariant)

end Lookup

inductive Call : Type 1 where
  | change (op : Operation)
  | ask (lookup : Lookup)

namespace Call

def perform : Call → Store → Checked Store
  | change op, s => op.apply s
  | ask lookup, s => do
    lookup.ask s
    return s

def performAll : List Call → Store → Checked Store
  | [], s => return s
  | call :: rest, s => do performAll rest (← call.perform s)

def Allowed (s : Store) : Call → Prop
  | change op => op.Allowed s
  | ask lookup => lookup.Allowed s

def Admissible : List Call → Store → Prop
  | [], _ => True
  | call :: rest, s => call.Allowed s ∧ ∀ t, call.perform s = .ok t → Admissible rest t

theorem perform_spec {s : Store} (hs : s.Invariant) {call : Call} (ha : call.Allowed s) :
    ∃ t, call.perform s = .ok t ∧ s.Keeps t := by
  cases call with
  | change op => exact op.exists_apply hs ha
  | ask lookup => exact ⟨s, by rw [perform, lookup.ask_eq hs ha]; rfl, .refl hs⟩

theorem performAll_spec {s : Store} (hs : s.Invariant) {calls : List Call}
    (ha : Admissible calls s) : ∃ t, performAll calls s = .ok t ∧ s.Keeps t := by
  induction calls generalizing s with
  | nil => exact ⟨s, rfl, .refl hs⟩
  | cons call rest ih =>
    obtain ⟨hallowed, hrest⟩ := ha
    obtain ⟨t, hperform, ht⟩ := perform_spec hs hallowed
    obtain ⟨u, hall, hu⟩ := ih ht.invariant (hrest t hperform)
    exact ⟨u, by rw [performAll, hperform]; exact hall, ht.trans hu⟩

end Call

/-! ## What is read without a check -/

namespace Store

variable {s : Store}

/-- What a store reads without a check is there. -/
structure Grounded (s : Store) : Prop where
  /-- A walk over the store goes through its primary index. -/
  primary : s.indices ≠ []
  /-- The bounds of an array index are checked after its positions, against the types they have. -/
  typed : ∀ (d : Descriptor) (slot : Nat),
    Projection.checkPositions s.shape (.positionOutOfRange d.kind slot · s.shape)
      (.positionRepeated d.kind slot) [] d.fields = .ok () →
    ∀ axis ∈ d.axes, ∃ type, s.shape.field? axis.position = some type
  /-- A heap moves items from the places it noted for their handles. -/
  placed : ∀ d ∈ s.indices, ∀ g, d.index = .heap g → ∀ h place, (h, place) ∈ g.places →
    ∃ e group, s.entry? h = some e ∧ g.group? (g.projection.keyOf e) = some group ∧
      ∃ item, group.items[place]? = some item ∧ item.handle = h

theorem Invariant.grounded (hs : s.Invariant) : s.Grounded where
  primary := hs.primary
  typed d slot hcheck axis haxis := by
    have hfields : d.fields = d.axes.map Axis.position := by
      match d with
      | ⟨.array axes, _⟩ => rfl
      | ⟨.list _, _⟩ | ⟨.hash _ _, _⟩ | ⟨.tree _ _, _⟩ | ⟨.heap _ _ _, _⟩ => cases haxis
    have hmem : axis.position ∈ d.fields := hfields ▸ List.mem_map_of_mem haxis
    obtain ⟨hpos, hle⟩ := (Projection.checkPositions_eq_ok_iff.1 hcheck).1 _ hmem
    rw [Shape.field?, if_neg (by omega)]
    exact ⟨_, List.getElem?_eq_getElem (by rw [Shape.arity] at hle; omega)⟩
  placed d hd g hindex h place hplace := by
    have hsound := hs.sound d hd
    rw [hindex] at hsound
    have hf : g.Filed s.source := hsound.filed
    have hknown : Heap.placeOf h g.places = some place :=
      OrderedTable.find?_of_mem hf.table hplace Std.ReflCmp.compare_self
    have hh : h ∈ g.handles := hf.known h (by rw [hknown]; rfl)
    obtain ⟨e, he⟩ := Option.isSome_iff_exists.1 ((hsound.complete h).1 hh)
    obtain ⟨group, i, hgroup, hi, hlt, hhandle⟩ := hf.exists_place he hh
    obtain rfl := Option.some.inj (hknown.symm.trans hi)
    exact ⟨e, group, he, hgroup, _, Array.getElem?_eq_getElem hlt, hhandle⟩

/-- A store whose layout was accepted answers every call that comes with what it asks for. -/
theorem calls_never_fault {shape : Shape} {descriptors : List Descriptor} {calls : List Call}
    (hc : create shape descriptors = .ok s) (ha : Call.Admissible calls s) :
    ∃ t, Call.performAll calls s = .ok t ∧ t.shape = shape ∧ t.Grounded := by
  obtain ⟨hs, hshape, _⟩ := create_spec hc
  obtain ⟨t, hall, ht⟩ := Call.performAll_spec hs ha
  exact ⟨t, hall, ht.shape.trans hshape, ht.invariant.grounded⟩

/-- Three insertions, of which one is refused, a walk, and an edit in place that is taken back. -/
def sampleCalls : List Call :=
  sampleFill.map .change ++ [.ask (.first 2 (samplePair 0 20)),
    .change (.update ⟨0, 0⟩ (Edit.applyAll [.set 1 (.int 2), .accumulate .minus 2 (.int 25)]))]

theorem calls_never_fault_in_pairs : ∃ s, create ⟨[.int, .int]⟩ sampleLayout = .ok s ∧
    Call.Admissible sampleCalls s ∧ ∃ t, Call.performAll sampleCalls s = .ok t ∧
      t.shape = ⟨[.int, .int]⟩ ∧ t.Grounded ∧ t.size = 2 ∧
      t.entry? ⟨0, 0⟩ = some (samplePair 1 30) ∧ t.entry? ⟨1, 1⟩ = some (samplePair 2 20) := by
  obtain ⟨s, hs⟩ : ∃ s, create ⟨[.int, .int]⟩ sampleLayout = .ok s := ⟨_, rfl⟩
  have ha : Call.Admissible sampleCalls s := by
    obtain rfl := Except.ok.inj hs
    refine ⟨⟨rfl, by decide⟩, fun t ht => ?_⟩
    obtain rfl := Except.ok.inj ht
    refine ⟨⟨rfl, by decide⟩, fun t ht => ?_⟩
    obtain rfl := Except.ok.inj ht
    refine ⟨⟨rfl, by decide⟩, fun t ht => ?_⟩
    obtain rfl := Except.ok.inj ht
    refine ⟨⟨by decide, ⟨rfl, rfl⟩⟩, fun t ht => ?_⟩
    obtain rfl := Except.ok.inj ht
    refine ⟨fun e he => ?_, fun _ _ => trivial⟩
    obtain rfl := Option.some.inj he
    exact ⟨_, _, rfl, rfl⟩
  obtain ⟨t, ht, hshape, hgrounded⟩ := calls_never_fault hs ha
  refine ⟨s, hs, ha, t, ht, hshape, hgrounded, ?_⟩
  have hmem : t ∈ (Call.performAll sampleCalls s).toOption := by rw [ht]; rfl
  clear ha ht hshape hgrounded
  obtain rfl := Except.ok.inj hs
  revert t
  decide +kernel

end Store
end IndexedStore
