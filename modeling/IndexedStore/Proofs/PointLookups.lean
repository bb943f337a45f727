import IndexedStore.Proofs.Extrema

/-!
# Lookups in unique indices

Through a unique index under which all entries have full keys, a lookup by a full key is a partial
map from keys to live handles. It follows every insertion, update and deletion: a key that an entry
comes to have finds its handle, and a key that it gave up finds nothing.
-/
namespace IndexedStore.Store

variable {s t : Store} {slot : Nat} {d : Descriptor} {h : Handle} {e old new probe : Entry}

def Filled (s : Store) (positions : List Nat) : Prop :=
  ∀ h e, s.entry? h = some e → e.IsSet positions

/-- A lookup answers the one live handle whose entry has the key of the probe, or nothing if there
is none. -/
structure Finds (s : Store) (positions : List Nat) (probe : Entry) (found : Option Handle) :
    Prop where
  some_iff : ∀ h, found = some h ↔ ∃ e, s.entry? h = some e ∧ probe.Level positions e
  none_iff : found = none ↔ ∀ h e, s.entry? h = some e → ¬ probe.Level positions e

theorem Finds.of_some_iff {positions : List Nat} {found : Option Handle}
    (hsome : ∀ h, found = some h ↔ ∃ e, s.entry? h = some e ∧ probe.Level positions e) :
    s.Finds positions probe found where
  some_iff := hsome
  none_iff := by
    rw [Option.eq_none_iff_forall_ne_some]
    simp only [ne_eq, hsome, not_exists, not_and]

section Lookup

variable (hs : s.Invariant) (hd : s.descriptors[slot]? = some d) (hu : d.isUnique = true)
  (hfilled : s.Filled (d.keyFields s.shape))
include hs hd hu hfilled

theorem getHandle_finds (hp : probe.Conforms s.shape) (hset : probe.IsSet (d.keyFields s.shape)) :
    ∃ found, s.getHandle slot probe = .ok found ∧ s.Finds (d.keyFields s.shape) probe found := by
  rw [descriptors, List.getElem?_map, Option.map_eq_some_iff] at hd
  obtain ⟨declared, hdeclared, rfl⟩ := hd
  have hm := List.mem_of_getElem? hdeclared
  have hi := hs.sound declared hm
  have hstands := hs.stands declared hm
  obtain ⟨_, hunique, _⟩ := hstands.describes
  rw [← hunique] at hu
  have hheap : declared.index.kind.isHeap = false := by
    cases hindex : declared.index with
    | heap g =>
      rw [hindex] at hu
      cases hu
    | list | hash | tree | array => rfl
  have hvisits (h : Handle) : h ∈ declared.index.hits s.source probe ↔
      ∃ e, s.entry? h = some e ∧ probe.Level (declared.descriptor.keyFields s.shape) e := by
    have hmem {e : Entry} (he : s.source h = some e) :=
      (hi.mem_hits_iff hstands.reads hs.conforms hp he
        (.inr (hstands.isPartial_eq_false_iff.2 (hfilled h e he)))).trans
      (hstands.agrees_keyOf_iff.trans (Entry.agrees_iff_level hset (hfilled h e he)))
    constructor
    · intro hh
      obtain ⟨e, he⟩ := Option.isSome_iff_exists.1
        ((hi.complete h).1 (Index.mem_handles_of_mem_hits hi.filed hh))
      exact ⟨e, he, (hmem he).1 hh⟩
    · rintro ⟨e, he, level⟩
      exact (hmem he).2 level
  -- A second hit would have a key level with that of the first, beside it in a unique index.
  have hone {h k : Handle} (hh : h ∈ declared.index.hits s.source probe)
      (hk : k ∈ declared.index.hits s.source probe) : h = k := by
    obtain ⟨e, he, level⟩ := (hvisits h).1 hh
    obtain ⟨other, ho, hother⟩ := (hvisits k).1 hk
    by_contra hne
    exact (hi.admitted h e he).unrivalled hu k (Ne.symm hne) other ho
      (hstands.compare_keyOf_iff.2 (level.symm.trans hother))
  refine ⟨_, (getHandle_eq hp hdeclared).trans
    (hi.filed.get_eq_head? hstands.reads hs.conforms hp hheap), .of_some_iff fun h => ?_⟩
  rw [← hvisits]
  refine ⟨List.mem_of_head?, fun hh => ?_⟩
  cases hhits : declared.index.hits s.source probe with
  | nil => simp [hhits] at hh
  | cons k rest => rw [List.head?_cons, hone hh (hhits ▸ List.mem_cons_self)]

section Changed

variable (hkeeps : s.Keeps t) (hdesc : t.descriptors = s.descriptors) {x : Option Entry}
  (hsource : t.source = Function.update s.source h x)
  (hx : ∀ new, x = some new → new.IsSet (d.keyFields s.shape))
include hkeeps hdesc hsource hx

omit hs in
theorem getHandle_finds_changed (hp : probe.Conforms s.shape)
    (hset : probe.IsSet (d.keyFields s.shape)) :
    ∃ found, t.getHandle slot probe = .ok found ∧ t.Finds (d.keyFields s.shape) probe found := by
  have hshape := hkeeps.shape
  have hfilled' : t.Filled (d.keyFields t.shape) := by
    intro k e he
    have he : t.source k = some e := he
    rw [hsource] at he
    rw [hshape]
    by_cases hk : k = h
    · rw [hk, Function.update_self] at he
      exact hx e he
    · rw [Function.update_of_ne hk] at he
      exact hfilled k e he
  rw [← hdesc] at hd
  rw [← hshape] at hp hset ⊢
  exact getHandle_finds hkeeps.invariant hd hu hfilled' hp hset

theorem getHandle_given_up (hp : probe.Conforms s.shape)
    (hset : probe.IsSet (d.keyFields s.shape)) (he : s.source h = some e)
    (level : probe.Level (d.keyFields s.shape) e)
    (hnew : ∀ new, x = some new → ¬ probe.Level (d.keyFields s.shape) new) :
    t.getHandle slot probe = .ok none := by
  obtain ⟨before, _, hbefore⟩ := getHandle_finds hs hd hu hfilled hp hset
  obtain ⟨found, hget, hfound⟩ :=
    getHandle_finds_changed hd hu hfilled hkeeps hdesc hsource hx hp hset
  rw [hget, hfound.none_iff.2]
  intro k other ho hother
  have ho : t.source k = some other := ho
  rw [hsource] at ho
  by_cases hk : k = h
  · rw [hk, Function.update_self] at ho
    exact hnew other ho hother
  · rw [Function.update_of_ne hk] at ho
    have hsame := (hbefore.some_iff h).2 ⟨e, he, level⟩
    have hother := (hbefore.some_iff k).2 ⟨other, ho, hother⟩
    exact hk (Option.some.inj (hother.symm.trans hsame))

omit hs in
theorem getHandle_taken (hnew : x = some new) :
    t.getHandle slot new = .ok (some h) := by
  have hlive : t.source h = some new := by rw [hsource, Function.update_self, hnew]
  have hp : new.Conforms s.shape := hkeeps.shape ▸ hkeeps.invariant.conforms hlive
  obtain ⟨found, hget, hfound⟩ :=
    getHandle_finds_changed hd hu hfilled hkeeps hdesc hsource hx hp (hx new hnew)
  rw [hget, (hfound.some_iff h).2 ⟨new, hlive, .refl new⟩]

end Changed

theorem insert_taken (ha : (Operation.insert e).Allowed s) (hset : e.IsSet (d.keyFields s.shape))
    (hinsert : s.insert e = .ok (.ok h, t)) : t.getHandle slot e = .ok (some h) := by
  obtain ⟨answer, t', hinsert', hinv, hshape, hdesc, hinserted⟩ :=
    insert_spec hs ha.1 (hs.slab.hasRoom ha.2)
  obtain ⟨rfl, rfl⟩ : .ok h = answer ∧ t = t' := by simpa using hinsert.symm.trans hinsert'
  obtain ⟨_, hsource⟩ := hinserted
  refine getHandle_taken hd hu hfilled ⟨hinv, hshape⟩ hdesc hsource ?_ rfl
  rintro new ⟨⟩
  exact hset

theorem update_taken {ρ : Type} {mutate : Entry → Checked (Entry × ρ)} {answer : ρ}
    {result : Option ρ} (hm : Total (s.entry? h = some ·) mutate) (hold : s.source h = some old)
    (hnew : mutate old = .ok (new, answer)) (hset : new.IsSet (d.keyFields s.shape))
    (hmoved : ¬ old.Level (d.keyFields s.shape) new)
    (hupdate : s.update h mutate = .ok (.ok result, t)) :
    t.getHandle slot old = .ok none ∧ t.getHandle slot new = .ok (some h) := by
  obtain ⟨result', t', hupdate', hkeeps, hdesc, hupdated⟩ := update_spec hs hm
  obtain ⟨rfl, rfl⟩ : .ok result = result' ∧ t = t' := by simpa using hupdate.symm.trans hupdate'
  cases result with
  | none =>
    obtain ⟨hnone, _⟩ := hupdated
    cases hold.symm.trans hnone
  | some result =>
    obtain ⟨old', new', hold', hnew', hsource⟩ := hupdated
    obtain rfl := Option.some.inj (hold.symm.trans hold')
    obtain ⟨rfl, -⟩ : new = new' ∧ answer = result := by simpa using hnew.symm.trans hnew'
    have hx : ∀ other, some new = some other → other.IsSet (d.keyFields s.shape) := by
      rintro other ⟨⟩
      exact hset
    refine ⟨?_, getHandle_taken hd hu hfilled hkeeps hdesc hsource hx rfl⟩
    refine getHandle_given_up hs hd hu hfilled hkeeps hdesc hsource hx (hs.conforms hold)
      (hfilled h old hold) hold (.refl old) ?_
    rintro other ⟨⟩
    exact hmoved

theorem delete_given_up (he : s.source h = some e) : ∃ t, s.delete h = .ok (some e, t) ∧
    ∀ probe, Entry.Conforms probe s.shape → probe.IsSet (d.keyFields s.shape) →
      probe.Level (d.keyFields s.shape) e → t.getHandle slot probe = .ok none := by
  obtain ⟨t, hdelete, hkeeps, hdesc, hsource⟩ := delete_spec hs h
  rw [he] at hdelete
  refine ⟨t, hdelete, fun probe hp hset level => ?_⟩
  exact getHandle_given_up hs hd hu hfilled hkeeps hdesc hsource (fun _ hnone => by cases hnone) hp
    hset he level fun _ hnone => by cases hnone

theorem deleteByKey_given_up {other : Nat} (hother : other < s.indices.length)
    (hp : probe.Conforms s.shape) : ∃ removed t, s.deleteByKey other probe = .ok (removed, t) ∧
      (∀ e, removed = some e → t.getHandle slot e = .ok none) ∧
      (other = slot → probe.IsSet (d.keyFields s.shape) → t.getHandle slot probe = .ok none) := by
  obtain ⟨found, hfound⟩ := exists_getHandle hs hp (List.getElem?_eq_getElem hother)
  have hmine {h : Handle} (hsame : other = slot) (hset : probe.IsSet (d.keyFields s.shape))
      (hh : found = some h) : ∃ e, s.source h = some e ∧ probe.Level (d.keyFields s.shape) e := by
    obtain ⟨found', hfound', hfinds⟩ := getHandle_finds hs hd hu hfilled hp hset
    rw [← hsame, hfound, Except.ok.injEq] at hfound'
    exact (hfinds.some_iff h).1 (hfound' ▸ hh)
  rw [deleteByKey, hfound, Checked.ok_bind]
  cases found with
  | none =>
    refine ⟨none, s, rfl, fun e he => (by cases he), fun hsame _ => ?_⟩
    rw [← hsame, hfound]
  | some h =>
    cases he : s.source h with
    | none =>
      obtain ⟨t, hdelete, _⟩ := delete_spec hs h
      rw [he] at hdelete
      refine ⟨none, t, hdelete, fun e he => (by cases he), fun hsame hset => ?_⟩
      obtain ⟨e, hlive, _⟩ := hmine hsame hset rfl
      cases he.symm.trans hlive
    | some e =>
      obtain ⟨t, hdelete, hgone⟩ := delete_given_up hs hd hu hfilled he
      refine ⟨some e, t, hdelete, ?_, fun hsame hset => ?_⟩
      · rintro _ ⟨⟩
        exact hgone e (hs.conforms he) (hfilled h e he) (.refl e)
      · obtain ⟨e', hlive, level⟩ := hmine hsame hset rfl
        obtain rfl := Option.some.inj (he.symm.trans hlive)
        exact hgone probe hp hset level

end Lookup

/-- How lookups by full keys through a slot answer, now and after one more change of the store. -/
structure Tracks (s : Store) (slot : Nat) (positions : List Nat) : Prop where
  lookup : ∀ probe, probe.Conforms s.shape → probe.IsSet positions →
    ∃ found, s.getHandle slot probe = .ok found ∧ s.Finds positions probe found
  insert : ∀ e h t, (Operation.insert e).Allowed s → e.IsSet positions →
    s.insert e = .ok (.ok h, t) → t.getHandle slot e = .ok (some h)
  update : ∀ {ρ : Type} (mutate : Entry → Checked (Entry × ρ)) h old new answer result t,
    Total (s.entry? h = some ·) mutate → s.entry? h = some old → mutate old = .ok (new, answer) →
    new.IsSet positions → ¬ old.Level positions new → s.update h mutate = .ok (.ok result, t) →
    t.getHandle slot old = .ok none ∧ t.getHandle slot new = .ok (some h)
  delete : ∀ h e, s.entry? h = some e →
    ∃ t, s.delete h = .ok (some e, t) ∧ t.getHandle slot e = .ok none
  deleteByKey : ∀ other probe, other < s.indices.length → probe.Conforms s.shape →
    ∃ removed t, s.deleteByKey other probe = .ok (removed, t) ∧
      (∀ e, removed = some e → t.getHandle slot e = .ok none) ∧
      (other = slot → probe.IsSet positions → t.getHandle slot probe = .ok none)

/-- In every store that a run leads to, lookups by full keys through a unique index under which all
entries have full keys are a partial map from keys to live handles, before and after every change. -/
theorem unique_tracks (hr : s.Reachable) (hd : s.descriptors[slot]? = some d)
    (hu : d.isUnique = true) (hfilled : s.Filled (d.keyFields s.shape)) :
    s.Tracks slot (d.keyFields s.shape) where
  lookup _ hp hset := getHandle_finds hr.invariant hd hu hfilled hp hset
  insert _ _ _ ha hset hinsert := insert_taken hr.invariant hd hu hfilled ha hset hinsert
  update _ _ _ _ _ _ _ hm hold hnew hset hmoved hupdate :=
    update_taken hr.invariant hd hu hfilled hm hold hnew hset hmoved hupdate
  delete h e he := by
    have hs := hr.invariant
    obtain ⟨t, hdelete, hgone⟩ := delete_given_up hs hd hu hfilled he
    exact ⟨t, hdelete, hgone e (hs.conforms he) (hfilled h e he) (.refl e)⟩
  deleteByKey _ _ hother hp := deleteByKey_given_up hr.invariant hd hu hfilled hother hp

def sampleMove : Entry → Checked (Entry × List (Option Error)) := Edit.applyAll [.set 1 (.int 5)]

/-- A unique index tracks its keys after it refused one, and through an edit in place. -/
theorem unique_tracks_of_refusal : ∃ s d, Reachable s ∧ s.descriptors[0]? = some d ∧
    d.isUnique = true ∧ s.Filled (d.keyFields s.shape) ∧ s.Tracks 0 (d.keyFields s.shape) ∧
    s.size = 2 ∧ s.getHandle 0 (samplePair 1 0) = .ok (some ⟨0, 0⟩) ∧
    Total (s.entry? ⟨0, 0⟩ = some ·) sampleMove ∧
    ∃ result t, s.update ⟨0, 0⟩ sampleMove = .ok (.ok result, t) ∧
      t.getHandle 0 (samplePair 1 30) = .ok none ∧
      t.getHandle 0 (samplePair 5 30) = .ok (some ⟨0, 0⟩) := by
  obtain ⟨s, hs⟩ : ∃ s, create ⟨[.int, .int]⟩ sampleLayout = .ok s := ⟨_, rfl⟩
  obtain ⟨t, ht⟩ : ∃ t, run sampleFill s = .ok t := by
    obtain rfl := Except.ok.inj hs
    exact ⟨_, rfl⟩
  have hr : Reachable t := (Reachable.created hs).run (admissible_sampleFill hs) ht
  have hfacts : t.descriptors[0]? = some (.ofForm (.hash [1] true)) ∧
      (∀ item ∈ t.slab.toList, item.2.IsSet [1]) ∧ t.size = 2 ∧
      t.entry? ⟨0, 0⟩ = some (samplePair 1 30) ∧
      t.getHandle 0 (samplePair 1 0) = .ok (some ⟨0, 0⟩) ∧
      Prod.fst <$> t.update ⟨0, 0⟩ sampleMove = .ok (.ok (some [none])) := by
    obtain rfl := Except.ok.inj hs
    obtain rfl := Except.ok.inj ht
    decide +kernel
  obtain ⟨hd, hset, hsize, hentry, hanswer, hmove⟩ := hfacts
  have hfilled : t.Filled [1] := fun h e he =>
    hset (h, e) ((Slab.mem_toList_iff hr.invariant.slab).2 he)
  have htracks := unique_tracks hr hd rfl hfilled
  have hm : Total (t.entry? ⟨0, 0⟩ = some ·) sampleMove := by
    intro e he
    obtain rfl := Option.some.inj (hentry.symm.trans he)
    exact ⟨_, _, rfl, rfl⟩
  obtain ⟨⟨answer, u⟩, hupdate, rfl⟩ := Checked.map_eq_ok.1 hmove
  have hfull : (samplePair 5 30).IsSet [1] := by decide
  have hmoved : ¬ (samplePair 1 30).Level [1] (samplePair 5 30) := by decide
  obtain ⟨hgone, hfound⟩ :=
    htracks.update sampleMove ⟨0, 0⟩ _ _ _ _ u hm hentry rfl hfull hmoved hupdate
  exact ⟨t, _, hr, hd, rfl, hfilled, htracks, hsize, hanswer, hm, _, u, hupdate, hgone, hfound⟩

end IndexedStore.Store
