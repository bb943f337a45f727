import IndexedStore.Proofs.Extrema

/-!
# Slices by a probe with a wildcard

A probe with an unset key field has no place of its own in an index. Each kind of index looks for it
in another way, and all of them visit the same entries: those that agree with the probe up to
wildcards, each once.
-/
namespace IndexedStore

namespace Store

variable {s : Store} {probe : Entry} {slot : Nat} {d : Declared}

/-- In every store that a run leads to, a slice by a probe that leaves some key field of an index
unset visits exactly the live entries that agree with the probe up to wildcards, each once. -/
theorem slice_wildcard (hr : s.Reachable) (hp : probe.Conforms s.shape)
    (hd : s.indices[slot]? = some d)
    (hopen : ∃ p ∈ d.descriptor.keyFields s.shape, (probe.field p).isUnset = true) :
    ∃ hits, s.slice slot probe = .ok hits ∧ (hits.map Prod.fst).Nodup ∧
      ∀ h e, (h, e) ∈ hits ↔
        s.entry? h = some e ∧ probe.Agrees (d.descriptor.keyFields s.shape) e := by
  have hs := hr.invariant
  have hm := List.mem_of_getElem? hd
  have hi := hs.sound d hm
  have hstands := hs.stands d hm
  have hlive : ∀ h ∈ d.index.hits s.source probe, (s.source h).isSome := fun h hh =>
    (hi.complete h).1 (Index.mem_handles_of_mem_hits hi.filed hh)
  obtain ⟨hhandles, hentries⟩ := resolve_spec hlive
  have hvisits {h : Handle} {e : Entry} (he : s.source h = some e) :
      h ∈ d.index.hits s.source probe ↔ probe.Agrees (d.descriptor.keyFields s.shape) e :=
    (hi.mem_hits_iff hstands.reads hs.conforms hp he
      (.inl (hstands.isPartial_iff.2 hopen))).trans hstands.agrees_keyOf_iff
  refine ⟨_, slice_eq hs hp hd, ?_, fun h e => ⟨fun hhit => ?_, ?_⟩⟩
  · rw [hhandles]
    exact hi.nodup_hits probe
  · have he := hentries _ hhit
    exact ⟨he, (hvisits he).1 (hhandles ▸ List.mem_map_of_mem hhit)⟩
  · rintro ⟨he, hagrees⟩
    exact List.mem_filterMap.2 ⟨h, (hvisits he).2 hagrees, by rw [he]; rfl⟩

def sampleOpen (a : Int32) : Entry := ⟨⟨[.int, .int]⟩, [.int a, .unset .int]⟩

def openLayout : List Descriptor := [.ofForm (.list []), .ofForm (.tree [1, 2] false)]

def openPairs : List Entry := [samplePair 1 10, samplePair 2 10, sampleOpen 1]

/-- A probe for all pairs with one first value visits the open one among them. -/
theorem slice_wildcard_of_open_pair : ∃ s d hits, Reachable s ∧
    (sampleOpen 1).Conforms s.shape ∧ s.indices[1]? = some d ∧
    (∃ p ∈ d.descriptor.keyFields s.shape, ((sampleOpen 1).field p).isUnset = true) ∧
    s.slice 1 (sampleOpen 1) = .ok hits ∧ (hits.map Prod.fst).Nodup ∧
    (∀ h e, (h, e) ∈ hits ↔
      s.entry? h = some e ∧ (sampleOpen 1).Agrees (d.descriptor.keyFields s.shape) e) ∧
    hits.map Prod.fst = [⟨2, 0⟩, ⟨0, 0⟩] := by
  obtain ⟨s, hs⟩ : ∃ s, create ⟨[.int, .int]⟩ openLayout = .ok s := ⟨_, rfl⟩
  obtain ⟨t, ht⟩ : ∃ t, run (openPairs.map .insert) s = .ok t := by
    obtain rfl := Except.ok.inj hs
    exact ⟨_, rfl⟩
  have hr : Reachable t := .filled hs (by decide) (by decide) ht
  have hfacts : (sampleOpen 1).Conforms t.shape ∧
      (∃ d, t.indices[1]? = some d ∧
        ∃ p ∈ d.descriptor.keyFields t.shape, ((sampleOpen 1).field p).isUnset = true) ∧
      t.slice 1 (sampleOpen 1) =
        .ok [(⟨2, 0⟩, sampleOpen 1), (⟨0, 0⟩, samplePair 1 10)] := by
    obtain rfl := Except.ok.inj hs
    obtain rfl := Except.ok.inj ht
    exact ⟨⟨rfl, rfl⟩, ⟨_, rfl, 2, by decide, rfl⟩, by decide +kernel⟩
  obtain ⟨hp, ⟨d, hd, hopen⟩, hanswer⟩ := hfacts
  obtain ⟨hits, hslice, hnodup, hvisits⟩ := slice_wildcard hr hp hd hopen
  obtain rfl := Except.ok.inj (hslice.symm.trans hanswer)
  exact ⟨t, d, _, hr, hp, hd, hopen, hslice, hnodup, hvisits, rfl⟩

end Store
end IndexedStore
