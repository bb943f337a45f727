import IndexedStore.Index.HashChains
import IndexedStore.Proofs.Keys
import IndexedStore.Proofs.Tables

/-!
# What hash chains hold

Every handle stands in the chain of the hash of its entry's key. A fully set probe looks at one
chain only; an addition puts a handle at the end of its chain, and a removal takes it out of there,
while all other chains stay as they are.
-/
namespace IndexedStore.HashChains

variable {c : HashChains} {source after : Source} {h : Handle} {e probe : Entry} {hash : UInt32}

/-- Every handle stands in the chain its entry's key belongs to, and no chain is empty. -/
structure Filed (source : Source) (c : HashChains) : Prop where
  ascending : OrderedTable.Ascending Ord.compare c.chains
  occupied : ∀ row ∈ c.chains, row.2 ≠ []
  placed : ∀ hash, ∀ h ∈ c.chain hash, ∃ e, source h = some e ∧ c.projection.Fits e ∧
    (c.projection.keyOf e).hash = hash
  entries : c.tally.entries = c.handles.length

/-- The chains without one occurrence of a handle in the chain of a hash. -/
def pull (c : HashChains) (hash : UInt32) (h : Handle) : HashChains :=
  { c with
    chains := OrderedTable.putList Ord.compare hash ((c.chain hash).erase h) c.chains
    tally := (if ((c.chain hash).erase h).isEmpty then c.tally.removeKey else c.tally).removeEntry }

/-- The other handle under the key of an entry, which a unique index does not let it share. -/
def rival? (c : HashChains) (source : Source) (h : Handle) (e : Entry) : Option Handle :=
  if c.unique then
    ((c.chain (c.projection.keyOf e).hash).filter (· ≠ h)).find? fun other =>
      (source other).any fun stored => Key.same (c.projection.keyOf e) (c.projection.keyOf stored)
  else none

theorem chain_eq_listAt : c.chain hash = OrderedTable.listAt Ord.compare hash c.chains := rfl

theorem push_chains : (c.push hash h).chains =
    OrderedTable.putList Ord.compare hash (c.chain hash ++ [h]) c.chains :=
  OrderedTable.put_append_eq_putList _ _

theorem push_entries : (c.push hash h).tally.entries = c.tally.entries + 1 := by
  simp only [push, Tally.addEntry]
  split <;> rfl

theorem pull_entries : (c.pull hash h).tally.entries = c.tally.entries - 1 := by
  simp only [pull, Tally.removeEntry]
  split <;> rfl

theorem empty_filed (π : Projection) (unique : Bool) : (empty π unique).Filed source where
  ascending := List.Pairwise.nil
  occupied := by simp [empty]
  placed := by simp [empty, chain, OrderedTable.find?]
  entries := rfl

theorem clear_filed (c : HashChains) : c.clear.Filed source where
  ascending := List.Pairwise.nil
  occupied := by simp [clear]
  placed := by simp [clear, chain, OrderedTable.find?]
  entries := rfl

namespace Filed

variable (hf : c.Filed source)
include hf

theorem mem_handles_iff : h ∈ c.handles ↔ ∃ hash, h ∈ c.chain hash :=
  OrderedTable.mem_flatMap_iff hf.ascending

theorem mem_chain_iff (hs : source h = some e) :
    h ∈ c.chain hash ↔ h ∈ c.handles ∧ (c.projection.keyOf e).hash = hash := by
  have key {k : UInt32} (hk : h ∈ c.chain k) : (c.projection.keyOf e).hash = k := by
    obtain ⟨e', he', -, hash_eq⟩ := hf.placed k h hk
    obtain rfl := Option.some.inj (hs.symm.trans he')
    exact hash_eq
  constructor
  · exact fun hh => ⟨hf.mem_handles_iff.2 ⟨hash, hh⟩, key hh⟩
  · rintro ⟨hh, rfl⟩
    obtain ⟨k, hk⟩ := hf.mem_handles_iff.1 hh
    rwa [key hk]

theorem exists_entry (hh : h ∈ c.handles) : ∃ e, source h = some e ∧ c.projection.Fits e := by
  obtain ⟨hash, hc⟩ := hf.mem_handles_iff.1 hh
  obtain ⟨e, hs, hfit, _⟩ := hf.placed hash h hc
  exact ⟨e, hs, hfit⟩

theorem chain_push (k : UInt32) :
    (c.push hash h).chain k = if k = hash then c.chain hash ++ [h] else c.chain k := by
  rw [chain_eq_listAt, push_chains, OrderedTable.listAt_putList hf.ascending]
  simp only [Std.LawfulEqCmp.compare_eq_iff_eq]
  rfl

theorem chain_pull (k : UInt32) :
    (c.pull hash h).chain k = if k = hash then (c.chain hash).erase h else c.chain k := by
  rw [chain_eq_listAt, pull, OrderedTable.listAt_putList hf.ascending]
  simp only [Std.LawfulEqCmp.compare_eq_iff_eq]
  rfl

theorem handles_push : (c.push hash h).handles.Perm (h :: c.handles) := by
  rw [handles, push_chains]
  exact OrderedTable.flatMap_push_perm hf.ascending h

theorem handles_pull (hh : h ∈ c.chain hash) : (c.pull hash h).handles.Perm (c.handles.erase h) :=
  OrderedTable.flatMap_pull_perm hf.ascending hh

theorem push (hs : source h = some e) (hfit : c.projection.Fits e) :
    (c.push (c.projection.keyOf e).hash h).Filed source where
  ascending := OrderedTable.ascending_alter hf.ascending
  occupied := by
    rw [push_chains]
    exact OrderedTable.ne_nil_of_mem_putList hf.ascending hf.occupied
  placed := by
    intro k g hg
    rw [hf.chain_push] at hg
    split at hg
    next hk =>
      rcases List.mem_append.1 hg with hg | hg
      · exact hf.placed k g (hk ▸ hg)
      · obtain rfl := List.mem_singleton.1 hg
        exact ⟨e, hs, hfit, hk.symm⟩
    · exact hf.placed k g hg
  entries := by rw [push_entries, hf.entries, hf.handles_push.length_eq, List.length_cons]

theorem pull (hh : h ∈ c.chain hash) : (c.pull hash h).Filed source where
  ascending := OrderedTable.ascending_alter hf.ascending
  occupied := OrderedTable.ne_nil_of_mem_putList hf.ascending hf.occupied
  placed := by
    intro k g hg
    rw [hf.chain_pull] at hg
    split at hg
    next hk => exact hf.placed k g (hk ▸ List.mem_of_mem_erase hg)
    · exact hf.placed k g hg
  entries := by
    have hm : h ∈ c.handles := hf.mem_handles_iff.2 ⟨hash, hh⟩
    rw [pull_entries, hf.entries, (hf.handles_pull hh).length_eq, List.length_erase_of_mem hm]

theorem congr (hk : ∀ h ∈ c.handles, ∀ e, source h = some e → ∃ e', after h = some e' ∧
    c.projection.Fits e' ∧ Key.compare (c.projection.keyOf e) (c.projection.keyOf e') = .eq) :
    c.Filed after where
  ascending := hf.ascending
  occupied := hf.occupied
  placed := by
    intro k g hg
    obtain ⟨e, hs, _, rfl⟩ := hf.placed k g hg
    obtain ⟨e', hs', hfit, level⟩ := hk g (hf.mem_handles_iff.2 ⟨_, hg⟩) e hs
    exact ⟨e', hs', hfit, (Key.hash_eq level).symm⟩
  entries := hf.entries

theorem rival?_eq_none_iff (hc : ∀ k, k ∈ c.handles ↔ (source k).isSome) :
    c.rival? source h e = none ↔ (c.unique = true → ∀ k ≠ h, ∀ other, source k = some other →
      Key.compare (c.projection.keyOf e) (c.projection.keyOf other) ≠ .eq) := by
  rw [rival?]
  split
  next hu =>
    simp only [List.find?_eq_none, List.mem_filter, decide_eq_true_eq, and_imp, hu, true_imp_iff]
    constructor
    · intro hnone k hne other hk level
      have hm : k ∈ c.chain (c.projection.keyOf e).hash :=
        (hf.mem_chain_iff hk).2 ⟨(hc k).2 (by simp [hk]), (Key.hash_eq level).symm⟩
      have := hnone k hm hne
      simp [hk, Projection.same_keyOf_iff.2 level] at this
    · intro hnone k hm hne
      obtain ⟨other, hk, _⟩ := hf.placed _ k hm
      simpa [hk, Projection.same_keyOf_iff] using hnone k hne other hk
  next hu => simp [hu]

/-- An addition is refused for a rival only; otherwise the handle comes last in its chain. -/
theorem add_eq (hfit : c.projection.Fits e) (hsame : ∀ g ∈ c.handles, after g = source g) :
    c.add after h e = .ok (match c.rival? source h e with
      | some rival => .error (.duplicateKey rival)
      | none => .ok (c.push (c.projection.keyOf e).hash h)) := by
  have hclash : ∀ g ∈ (c.chain (c.projection.keyOf e).hash).filter (· ≠ h),
      c.projection.clashes after e g = .ok ((source g).any fun stored =>
        Key.same (c.projection.keyOf e) (c.projection.keyOf stored)) := by
    intro g hg
    obtain ⟨hc, _⟩ := List.mem_filter.1 hg
    obtain ⟨e', hs, hfit', _⟩ := hf.placed _ g hc
    have hsame := hsame g (hf.mem_handles_iff.2 ⟨_, hc⟩)
    rw [Projection.clashes_eq hfit (by rw [hsame, hs]; rintro _ ⟨⟩; exact hfit'), hsame]
  rw [add, Projection.hash_eq hfit, Checked.ok_bind]
  cases hu : c.unique with
  | false => simp [rival?, hu]
  | true =>
    rw [if_pos rfl]
    dsimp only
    rw [Checked.findM?_eq_find? hclash, rival?, if_pos hu]
    cases ((c.chain (c.projection.keyOf e).hash).filter (· ≠ h)).find? _ <;> rfl

end Filed

theorem add_ok {c' : HashChains} (hfit : c.projection.Fits e)
    (hadd : c.add source h e = .ok (.ok c')) : c' = c.push (c.projection.keyOf e).hash h := by
  rw [add, Projection.hash_eq hfit, Checked.ok_bind] at hadd
  split at hadd
  · obtain ⟨clash, _, hadd⟩ := Checked.bind_eq_ok.1 hadd
    cases clash with
    | none => exact (Except.ok.inj (Except.ok.inj hadd)).symm
    | some holder => cases hadd
  · exact (Except.ok.inj (Except.ok.inj hadd)).symm

theorem duplicateKey_of_refused {why : Rejection} (hfit : c.projection.Fits e)
    (hadd : c.add source h e = .ok (.error why)) : ∃ holder, why = .duplicateKey holder := by
  rw [add, Projection.hash_eq hfit, Checked.ok_bind] at hadd
  split at hadd
  · obtain ⟨clash, _, hadd⟩ := Checked.bind_eq_ok.1 hadd
    cases clash with
    | none => cases hadd
    | some holder => exact ⟨holder, (Except.error.inj (Except.ok.inj hadd)).symm⟩
  · cases hadd

theorem remove?_eq (hfit : c.projection.Fits e) : c.remove? h e = .ok
    (if h ∈ c.chain (c.projection.keyOf e).hash then some (c.pull (c.projection.keyOf e).hash h)
    else none) := by
  rw [remove?, Projection.hash_eq hfit, Checked.ok_bind]
  split <;> simp_all [HashChains.pull, OrderedTable.putList]

section Lookups

variable (hf : c.Filed source) (hfit : c.projection.Fits probe)
include hf hfit

theorem reaches_eq (hh : h ∈ c.handles) :
    c.projection.reaches source probe h = .ok (c.projection.meets source probe h) := by
  obtain ⟨e, hs, he⟩ := hf.exists_entry hh
  exact Projection.reaches_eq hfit (by rw [hs]; rintro _ ⟨⟩; exact he)

/-- A fully set probe visits the handles of one chain that agree with it. -/
theorem slice_full (hp : (c.projection.keyOf probe).isPartial = false) : c.slice source probe = .ok
    ((c.chain (c.projection.keyOf probe).hash).filter (c.projection.meets source probe)) := by
  rw [slice, candidates, Projection.isPartial_eq hfit, Projection.hash_eq hfit, hp]
  exact keep_eq_filter fun h hh => reaches_eq hf hfit (hf.mem_handles_iff.2 ⟨_, hh⟩)

theorem slice_partial (hp : (c.projection.keyOf probe).isPartial = true) :
    c.slice source probe = .ok (c.handles.filter (c.projection.meets source probe)) := by
  rw [slice, candidates, Projection.isPartial_eq hfit, hp]
  exact keep_eq_filter fun h hh => reaches_eq hf hfit hh

theorem exists_candidates :
    ∃ found, c.candidates probe = .ok found ∧ ∀ h ∈ found, h ∈ c.handles := by
  rw [candidates, Projection.isPartial_eq hfit, Projection.hash_eq hfit]
  cases (c.projection.keyOf probe).isPartial
  · exact ⟨_, rfl, fun h hh => hf.mem_handles_iff.2 ⟨_, hh⟩⟩
  · exact ⟨_, rfl, fun h hh => hh⟩

theorem get_eq_head? {hits : List Handle} (hs : c.slice source probe = .ok hits) :
    c.get source probe = .ok hits.head? := by
  obtain ⟨found, hfound, hmem⟩ := exists_candidates hf hfit
  have hall : ∀ h ∈ found, c.projection.reaches source probe h =
      .ok (c.projection.meets source probe h) := fun h hh => reaches_eq hf hfit (hmem h hh)
  rw [slice, hfound, Checked.ok_bind, keep_eq_filter hall, Except.ok.injEq] at hs
  rw [get, hfound, Checked.ok_bind, Checked.findM?_eq_find? hall, ← hs, List.head?_filter]

end Lookups

end IndexedStore.HashChains
