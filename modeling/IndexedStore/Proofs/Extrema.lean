import IndexedStore.Proofs.KeyFields
import IndexedStore.Proofs.Runs

/-!
# The foremost entry of a group

A heap on a group and a target answers a key with the live entry that comes first among those whose
group fields match the key: by the target in the direction of the heap, then by handle. A key with
all group fields set matches its own group only; any other matches up to wildcards, on either side.
-/
namespace IndexedStore

namespace Entry

def Matches (group : List Nat) (key e : Entry) : Prop :=
  if ∀ p ∈ group, (key.field p).isUnset = false then
    ∀ p ∈ group, (key.field p).compare (e.field p) = .eq
  else ∀ p ∈ group, (key.field p).isUnset = true ∨ (e.field p).isUnset = true ∨
    (key.field p).compare (e.field p) = .eq

end Entry

/-- Whether one live entry comes before another in a heap, or is the same one. -/
def Direction.Leads (order : Direction) (target : Nat) (h : Handle) (e : Entry) (k : Handle)
    (other : Entry) : Prop :=
  ((order.apply ((e.field target).compare (other.field target))).then (h.compare k)).isLE = true

/-- What a heap has to answer: a live entry that matches the key and comes first among all live
entries that do, or nothing if there is none. -/
def Source.Foremost (source : Source) (order : Direction) (group : List Nat) (target : Nat)
    (key : Entry) : Option Handle → Prop
  | none => ∀ h e, source h = some e → ¬ key.Matches group e
  | some best => ∃ e, source best = some e ∧ key.Matches group e ∧
      ∀ k other, source k = some other → key.Matches group other →
        order.Leads target best e k other

theorem Projection.selects_iff {π : Projection} {group : List Nat} {key e : Entry}
    (ho : π.offsets = group.map (· - 1)) :
    (π.keyOf key).selects (π.keyOf e) = true ↔ key.Matches group e := by
  have hpartial : (π.keyOf key).isPartial = false ↔
      ∀ p ∈ group, (key.field p).isUnset = false := by
    simp [isPartial_keyOf, ho, Entry.field]
  rw [Key.selects, Entry.Matches]
  cases hp : (π.keyOf key).isPartial with
  | false =>
    rw [if_pos (hpartial.1 hp), if_neg Bool.false_ne_true, Ordering.isEq_iff_eq_eq,
      compare_keyOf_iff, ho]
    simp [Entry.field]
  | true =>
    have hset : ¬ ∀ p ∈ group, (key.field p).isUnset = false := fun hall => by
      rw [hpartial.2 hall] at hp
      cases hp
    rw [if_neg hset, if_pos rfl, agrees_keyOf, ho, List.all_map, List.all_eq_true]
    simp [Entry.field, Value.same_eq_true_iff, or_assoc]

theorem Source.Foremost.unique {source : Source} {order : Direction} {group : List Nat}
    {target : Nat} {key : Entry} {a b : Option Handle}
    (ha : source.Foremost order group target key a)
    (hb : source.Foremost order group target key b) : a = b := by
  cases a with
  | none =>
    cases b with
    | none => rfl
    | some k =>
      obtain ⟨e, he, hmatch, _⟩ := hb
      exact absurd hmatch (ha k e he)
  | some h =>
    obtain ⟨e, he, hmatch, hfirst⟩ := ha
    cases b with
    | none => exact absurd hmatch (hb h e he)
    | some k =>
      obtain ⟨e', he', hmatch', hfirst'⟩ := hb
      have hle : (Item.compare order ⟨e.field target, h⟩ ⟨e'.field target, k⟩).isLE :=
        hfirst k e' he' hmatch'
      have hge : (Item.compare order ⟨e'.field target, k⟩ ⟨e.field target, h⟩).isLE :=
        hfirst' h e he hmatch
      have heq : h = k := Item.handle_eq (Item.not_isBefore_iff.2 hge) (Item.not_isBefore_iff.2 hle)
      rw [heq]

namespace Store

variable {s : Store} {order : Direction} {group : List Nat} {target slot : Nat} {d : Declared}
  {key : Entry}

theorem heap_of_form {shape : Shape} (hd : d.Stands shape)
    (hform : d.descriptor.form = .heap order group target) : ∃ g, d.index = .heap g ∧
      g.order = order ∧ g.target = target ∧ g.projection.offsets = group.map (· - 1) := by
  obtain ⟨_, _, hoffsets⟩ := hd.describes
  have hne : d.descriptor.fields ≠ [] := hd.fields.grouped (by rw [Descriptor.kind, hform]; rfl)
  rw [if_neg (by simpa using hne), Descriptor.fields, hform] at hoffsets
  have hbuilt := hd.built
  rw [Index.ofDescriptor] at hbuilt
  obtain ⟨π, _, hindex⟩ := Checked.bind_eq_ok.1 hbuilt
  rw [Checked.pure_eq_ok, Except.ok.injEq, hform] at hindex
  cases hi : d.index with
  | heap g =>
    rw [hi] at hindex hoffsets
    have hfields : π = g.projection ∧ target = g.target ∧ order = g.order := by
      simpa [Index.blank, GroupHeaps.empty] using hindex
    exact ⟨g, rfl, hfields.2.2.symm, hfields.2.1.symm, hoffsets⟩
  | list | hash | tree | array =>
    rw [hi] at hindex
    cases hindex

theorem getHandle_foremost (hs : s.Invariant) (hp : key.Conforms s.shape)
    (hd : s.indices[slot]? = some d) (hform : d.descriptor.form = .heap order group target) :
    ∃ found, s.getHandle slot key = .ok found ∧
      s.source.Foremost order group target key found := by
  have hmem := List.mem_of_getElem? hd
  have hsound := hs.sound d hmem
  obtain ⟨g, hg, horder, htarget, hoffsets⟩ := heap_of_form (hs.stands d hmem) hform
  have hfit := (hs.stands d hmem).reads.fits hp
  rw [getHandle_eq hp hd]
  rw [hg] at hsound hfit ⊢
  have hf : g.Filed s.source := hsound.filed
  obtain ⟨found, hpeek, hfound⟩ := hf.peek_spec hfit
  refine ⟨found, hpeek, ?_⟩
  have hlive {h : Handle} {e : Entry} (he : s.source h = some e) : h ∈ g.handles :=
    (hsound.complete h).2 (by simp [he])
  cases found with
  | none =>
    intro h e he hmatch
    have hno := hfound h (hlive he) e he
    rw [(Projection.selects_iff hoffsets).2 hmatch] at hno
    cases hno
  | some best =>
    obtain ⟨_, e, he, hsel, hmin⟩ := hfound
    refine ⟨e, he, (Projection.selects_iff hoffsets).1 hsel, fun k other ho hmatch => ?_⟩
    have hle := hmin k (hlive ho) other ho ((Projection.selects_iff hoffsets).2 hmatch)
    rw [Item.not_isBefore_iff, horder] at hle
    rwa [← htarget]

theorem form_of_findHeap? (hf : s.findHeap? order group target = some slot) :
    ∃ d, s.indices[slot]? = some d ∧ d.descriptor.form = .heap order group target := by
  rw [findHeap?, List.findIdx?_eq_some_iff_getElem] at hf
  obtain ⟨hlt, hfields, _⟩ := hf
  have hlt : slot < s.indices.length := by simpa [descriptors] using hlt
  refine ⟨s.indices[slot], List.getElem?_eq_getElem hlt, ?_⟩
  simp only [descriptors, List.getElem_map, decide_eq_true_eq] at hfields
  obtain ⟨hkind, hgroup, htarget⟩ := hfields
  rw [Descriptor.kind] at hkind
  rw [Descriptor.fields] at hgroup
  rw [Descriptor.target?] at htarget
  cases hform : s.indices[slot].descriptor.form <;> simp_all

theorem exists_findHeap? (hd : s.indices[slot]? = some d)
    (hform : d.descriptor.form = .heap order group target) :
    ∃ first, s.findHeap? order group target = some first := by
  rw [← Option.isSome_iff_exists, findHeap?, List.findIdx?_isSome, List.any_eq_true]
  refine ⟨d.descriptor, List.mem_map_of_mem (List.mem_of_getElem? hd), ?_⟩
  simp [Descriptor.kind, Descriptor.fields, Descriptor.target?, hform]

/-- In every store that a run leads to, every heap answers every key with the foremost live entry
that matches, and so does a peek that names the heap by its group and target. -/
theorem peek_foremost (hr : s.Reachable) (hp : key.Conforms s.shape)
    (hd : s.indices[slot]? = some d) (hform : d.descriptor.form = .heap order group target) :
    ∃ found, s.getHandle slot key = .ok found ∧
      s.peek order key group target = .ok (found.bind s.entry?) ∧
      s.source.Foremost order group target key found := by
  have hs := hr.invariant
  obtain ⟨first, hfirst⟩ := exists_findHeap? hd hform
  obtain ⟨d', hd', hform'⟩ := form_of_findHeap? hfirst
  obtain ⟨found, hget, hforemost⟩ := getHandle_foremost hs hp hd hform
  obtain ⟨found', hget', hforemost'⟩ := getHandle_foremost hs hp hd' hform'
  obtain rfl := hforemost.unique hforemost'
  refine ⟨found, hget, ?_, hforemost⟩
  rw [peek, hfirst]
  dsimp only
  rw [get, hget']
  rfl

/-- A key without a group is answered with the lesser target of two groups. -/
theorem peek_foremost_of_open_key : ∃ s d found, Reachable s ∧
    Entry.Conforms (.blank ⟨[.int, .int]⟩) s.shape ∧ s.indices[1]? = some d ∧
    d.descriptor.form = .heap .ascending [1] 2 ∧
    s.getHandle 1 (.blank ⟨[.int, .int]⟩) = .ok found ∧
    s.peek .ascending (.blank ⟨[.int, .int]⟩) [1] 2 = .ok (found.bind s.entry?) ∧
    s.source.Foremost .ascending [1] 2 (.blank ⟨[.int, .int]⟩) found ∧ found = some ⟨1, 1⟩ := by
  obtain ⟨s, hs⟩ : ∃ s, create ⟨[.int, .int]⟩ sampleLayout = .ok s := ⟨_, rfl⟩
  obtain ⟨t, ht⟩ : ∃ t, run sampleFill s = .ok t := by
    obtain rfl := Except.ok.inj hs
    exact ⟨_, rfl⟩
  have hr : Reachable t := (Reachable.created hs).run (admissible_sampleFill hs) ht
  have hfacts : Entry.Conforms (.blank ⟨[.int, .int]⟩) t.shape ∧
      (∃ d, t.indices[1]? = some d ∧ d.descriptor.form = .heap .ascending [1] 2) ∧
      t.getHandle 1 (.blank ⟨[.int, .int]⟩) = .ok (some ⟨1, 1⟩) := by
    obtain rfl := Except.ok.inj hs
    obtain rfl := Except.ok.inj ht
    exact ⟨⟨rfl, rfl⟩, ⟨_, rfl, rfl⟩, by decide +kernel⟩
  obtain ⟨hp, ⟨d, hd, hform⟩, hanswer⟩ := hfacts
  obtain ⟨found, hget, hpeek, hforemost⟩ := peek_foremost hr hp hd hform
  exact ⟨t, d, found, hr, hp, hd, hform, hget, hpeek, hforemost,
    Except.ok.inj (hget.symm.trans hanswer)⟩

end Store
end IndexedStore
