import IndexedStore.Proofs.Steps

/-!
# Runs of a store

A store is consistent if every index holds exactly the handles that reach an entry, each once and
under the key of its entry, if unique indices tell all entries apart, and if all counts agree. A
fresh store is consistent, and it stays so along every run of operations, whichever of them it
refuses.
-/
namespace IndexedStore

/-- A handle stands in an index where an entry belongs whose key, as the descriptor of the index
lists it, is `key`. -/
def Index.Holds (h : Handle) (e : Entry) (key : Key) : Index → Prop
  | .list l => h ∈ l.handles
  | .hash c => h ∈ c.chain key.hash
  | .tree r => ∃ row ∈ r.rows, Key.compare key row.1 = .eq ∧ h ∈ row.2
  | .array g => ∃ address, g.address? e = .ok (some address) ∧ g.holder? address = some h
  | .heap g => ∃ group ∈ g.groups, Key.compare key group.key = .eq ∧
      ∃ item ∈ group.items, item.handle = h ∧
        ∃ target, e.get g.target = .ok target ∧ item.value.compare target = .eq

theorem Index.Filed.holds {i : Index} {source : Source} {shape : Shape} {h : Handle} {e : Entry}
    (hf : i.Filed source) (hr : i.Reads shape) (he : e.Conforms shape) (hs : source h = some e)
    (hh : h ∈ i.handles) : i.Holds h e (i.projection.keyOf e) := by
  cases i with
  | list l => exact hh
  | hash c => exact (HashChains.Filed.mem_chain_iff hf hs).2 ⟨hh, rfl⟩
  | tree r =>
    have hf : r.Filed source := hf
    obtain ⟨row, hrow, hm⟩ := List.mem_flatMap.1 hh
    obtain ⟨e', hs', _, level⟩ := hf.placed row hrow h hm
    obtain rfl := Option.some.inj (hs.symm.trans hs')
    exact ⟨row, hrow, level, hm⟩
  | array g =>
    have hf : g.Filed source := hf
    obtain ⟨address, hm⟩ := AddressGrid.mem_handles_iff.1 hh
    have hholder := hf.holder?_eq_some_iff.2 hm
    have haddress := ((hf.holder?_iff hs).1 hholder).2
    exact ⟨address, by rw [AddressGrid.address?_eq (hr.fits he), haddress], hholder⟩
  | heap g =>
    have hf : g.Filed source := hf
    obtain ⟨group, hg, hm⟩ := GroupHeaps.mem_handles_iff.1 hh
    obtain ⟨item, hi, hhandle, e', hs', hreads, level, hvalue⟩ := hf.exists_bears hg hm
    obtain rfl := Option.some.inj (hs.symm.trans (hhandle ▸ hs'))
    exact ⟨group, hg, level, item, hi, hhandle, _, GroupHeaps.get_target hreads, hvalue⟩

inductive Operation : Type 1 where
  | insert (e : Entry)
  | update {ρ : Type} (h : Handle) (mutate : Entry → Checked (Entry × ρ))
  | sliceUpdate {σ : Type} (slot : Nat) (probe : Entry) (state : σ)
      (mutate : σ → Entry → Checked (Entry × σ))
  | delete (h : Handle)
  | deleteByKey (slot : Nat) (probe : Entry)
  | addIndex (descriptor : Descriptor)
  | extreme (order : Direction) (probe : Entry) (group : List Nat) (target : Nat)
  | clear
  | drain

namespace Operation

def apply : Operation → Store → Checked Store
  | insert e, s => Prod.snd <$> s.insert e
  | update h mutate, s => Prod.snd <$> s.update h mutate
  | sliceUpdate slot probe state mutate, s => Prod.snd <$> s.sliceUpdate slot probe state mutate
  | delete h, s => Prod.snd <$> s.delete h
  | deleteByKey slot probe, s => Prod.snd <$> s.deleteByKey slot probe
  | addIndex descriptor, s => do
    match ← s.addIndex descriptor with
    | .ok (_, grown) => return grown
    | .error _ => return s
  | extreme order probe group target, s => Prod.snd <$> s.extreme order probe group target
  | clear, s => return s.clear
  | drain, s => Prod.snd <$> s.drain

/-- What an operation asks for. Entries are well-typed, slots exist, probes have the shape of the
store, mutations answer for the entry at hand or for all of the shape, and an insertion finds a slot
number that no live entry has. -/
def Allowed (s : Store) : Operation → Prop
  | insert e => e.Typed ∧ s.size < UInt32.size
  | update h mutate => Store.Total (s.entry? h = some ·) mutate
  | sliceUpdate slot probe _ mutate => slot < s.indices.length ∧ probe.Conforms s.shape ∧
      ∀ state, Store.Total (Entry.Conforms · s.shape) (mutate state)
  | deleteByKey slot probe => slot < s.indices.length ∧ probe.Conforms s.shape
  | extreme _ probe _ _ => probe.Conforms s.shape
  | delete _ | addIndex _ | clear | drain => True

theorem exists_apply {s : Store} (hs : s.Invariant) {op : Operation} (ha : op.Allowed s) :
    ∃ t, op.apply s = .ok t ∧ s.Keeps t := by
  cases op with
  | insert e =>
    obtain ⟨answer, t, hinsert, hinv, hshape, _⟩ :=
      Store.insert_spec hs ha.1 (hs.slab.hasRoom ha.2)
    exact ⟨t, by rw [apply, hinsert]; rfl, hinv, hshape⟩
  | update h mutate =>
    obtain ⟨answer, t, hupdate, hkeeps, _⟩ := Store.update_spec hs ha
    exact ⟨t, by rw [apply, hupdate]; rfl, hkeeps⟩
  | sliceUpdate slot probe state mutate =>
    obtain ⟨answer, t, hupdate, hkeeps⟩ := Store.sliceUpdate_spec hs ha.2.1 ha.1 ha.2.2 state
    exact ⟨t, by rw [apply, hupdate]; rfl, hkeeps⟩
  | delete h =>
    obtain ⟨t, hdelete, hkeeps, _⟩ := Store.delete_spec hs h
    exact ⟨t, by rw [apply, hdelete]; rfl, hkeeps⟩
  | deleteByKey slot probe =>
    obtain ⟨removed, t, hdelete, hkeeps⟩ := Store.deleteByKey_spec hs ha.2 ha.1
    exact ⟨t, by rw [apply, hdelete]; rfl, hkeeps⟩
  | addIndex descriptor =>
    obtain ⟨result, hadd, hresult⟩ := Store.addIndex_spec hs descriptor
    rw [apply, hadd, Checked.ok_bind]
    cases result with
    | error err => exact ⟨s, rfl, .refl hs⟩
    | ok grown =>
      obtain ⟨_, ht, hshape, _⟩ := hresult
      exact ⟨grown.2, rfl, ht, hshape⟩
  | extreme order probe group target =>
    obtain ⟨answer, t, hextreme, hkeeps, _⟩ := Store.extreme_spec hs ha order group target
    exact ⟨t, by rw [apply, hextreme]; rfl, hkeeps⟩
  | clear => exact ⟨s.clear, rfl, Store.clear_spec hs⟩
  | drain =>
    exact ⟨s.clear, by rw [apply, Store.drain_spec hs]; rfl, Store.clear_spec hs⟩

theorem keeps_of_apply {s t : Store} (hs : s.Invariant) {op : Operation} (ha : op.Allowed s)
    (happly : op.apply s = .ok t) : s.Keeps t := by
  obtain ⟨t', happly', hkeeps⟩ := exists_apply hs ha
  obtain rfl := Except.ok.inj (happly'.symm.trans happly)
  exact hkeeps

end Operation

namespace Store

def run : List Operation → Store → Checked Store
  | [], s => .ok s
  | op :: rest, s => do run rest (← op.apply s)

def Admissible : List Operation → Store → Prop
  | [], _ => True
  | op :: rest, s => op.Allowed s ∧ ∀ t, op.apply s = .ok t → Admissible rest t

inductive Reachable : Store → Prop where
  | created {shape : Shape} {descriptors : List Descriptor} {s : Store} :
      create shape descriptors = .ok s → Reachable s
  | step {s t : Store} {op : Operation} :
      Reachable s → op.Allowed s → op.apply s = .ok t → Reachable t

/-- The indices of a store agree with what it holds, and with each other. -/
structure Consistent (s : Store) : Prop where
  /-- No index holds a handle twice. -/
  nodup : ∀ d ∈ s.indices, d.index.handles.Nodup
  /-- Every index holds exactly the handles that reach an entry. -/
  complete : ∀ d ∈ s.indices, ∀ h, h ∈ d.index.handles ↔ s.contains h = true
  /-- Every handle stands in every index under the key of its entry. -/
  placed : ∀ d ∈ s.indices, ∀ h e, s.entry? h = some e →
    ∃ key, d.reportedKey e = .ok key ∧ d.index.Holds h e key
  /-- No two entries have one key in a unique index, sentinels included. -/
  unique : ∀ d ∈ s.indices, d.descriptor.isUnique = true → ∀ h k e e' key key', h ≠ k →
    s.entry? h = some e → s.entry? k = some e' → d.reportedKey e = .ok key →
    d.reportedKey e' = .ok key' → Key.compare key key' ≠ .eq
  /-- Every index counts as many handles as the store counts entries. -/
  sizes : ∀ d ∈ s.indices, d.index.size = s.size
  /-- A walk over the store visits as many entries as it counts. -/
  visited : s.toList.length = s.size
  /-- The store counts its entries. -/
  counted : s.slab.toList.length = s.size

variable {s t : Store}

theorem Invariant.consistent (hs : s.Invariant) : s.Consistent where
  nodup d hd := (hs.sound d hd).nodup
  complete d hd := (hs.sound d hd).complete
  placed d hd h e he := by
    have hsound := hs.sound d hd
    have hstands := hs.stands d hd
    have hconforms : e.Conforms s.shape := hs.conforms he
    have hh : h ∈ d.index.handles := (hsound.complete h).2 (Option.isSome_iff_exists.2 ⟨e, he⟩)
    exact ⟨_, hstands.reportedKey_eq hconforms,
      hsound.filed.holds hstands.reads hconforms he hh⟩
  unique d hd hu h k e e' key key' hne he he' hkey hkey' := by
    have hstands := hs.stands d hd
    rw [hstands.reportedKey_eq (hs.conforms he), Except.ok.injEq] at hkey
    rw [hstands.reportedKey_eq (hs.conforms he'), Except.ok.injEq] at hkey'
    subst hkey hkey'
    exact ((hs.sound d hd).admitted h e he).unrivalled (hstands.describes.2.1.trans hu) k
      hne.symm e' he'
  sizes d hd := by
    have hsound := hs.sound d hd
    rw [hsound.size_eq]
    exact Slab.length_eq_size hs.slab hsound.nodup hsound.complete
  visited := by
    obtain ⟨hnodup, hcomplete⟩ := hs.handles_spec
    have hmap := congrArg List.length hs.toList_spec.1
    rw [List.length_map] at hmap
    rw [hmap]
    exact Slab.length_eq_size hs.slab hnodup hcomplete
  counted := by
    have hlength := Slab.length_handles hs.slab
    rwa [Slab.handles, List.length_map] at hlength

theorem Reachable.invariant (hr : s.Reachable) : s.Invariant := by
  induction hr with
  | created hc => exact (create_spec hc).1
  | step _ ha happly ih => exact (Operation.keeps_of_apply ih ha happly).invariant

theorem Reachable.run (hr : s.Reachable) {ops : List Operation} (ha : Admissible ops s)
    (hrun : run ops s = .ok t) : t.Reachable := by
  induction ops generalizing s with
  | nil =>
    obtain rfl := Except.ok.inj hrun
    exact hr
  | cons op rest ih =>
    obtain ⟨hallowed, hrest⟩ := ha
    obtain ⟨u, happly, hrun⟩ := Checked.bind_eq_ok.1 hrun
    exact ih (hr.step hallowed happly) (hrest u happly) hrun

theorem size_le_of_insert {e : Entry} (hs : s.Invariant) (ha : (Operation.insert e).Allowed s)
    (happly : (Operation.insert e).apply s = .ok t) : t.size ≤ s.size + 1 := by
  obtain ⟨answer, t', hinsert, ht, _, _, hinserted⟩ := insert_spec hs ha.1 (hs.slab.hasRoom ha.2)
  rw [Operation.apply, hinsert] at happly
  obtain rfl : t' = t := Except.ok.inj happly
  cases answer with
  | error err =>
    have hsource : t'.source = s.source := hinserted
    exact Nat.le_succ_of_le (Nat.le_of_eq (Slab.size_congr hs.slab ht.slab hsource))
  | ok h =>
    obtain ⟨hfree, hsource⟩ := hinserted
    have hold (k : Handle) : k ∈ s.slab.handles ↔ (s.source k).isSome :=
      Slab.mem_handles_iff hs.slab
    have hfresh : h ∉ s.slab.handles := fun hm => by simp [hold, hfree] at hm
    have hnodup := List.nodup_cons.2 ⟨hfresh, Slab.nodup_handles hs.slab⟩
    have hsize := Slab.length_eq_size ht.slab hnodup fun k => by
      change k ∈ h :: s.slab.handles ↔ (t'.source k).isSome = true
      rw [hsource, List.mem_cons, hold]
      by_cases hk : k = h <;> simp [hk]
    have hlength := Slab.length_handles hs.slab
    exact Nat.le_of_eq (hsize.symm.trans (congrArg (· + 1) hlength))

theorem size_create {shape : Shape} {descriptors : List Descriptor}
    (hc : create shape descriptors = .ok s) : s.size = 0 := by
  obtain ⟨hs, -, -, hempty⟩ := create_spec hc
  refine (Slab.length_eq_size hs.slab List.nodup_nil fun h => ?_).symm
  change h ∈ [] ↔ (s.source h).isSome = true
  simp [hempty]

theorem admissible_inserts {entries : List Entry} (hs : s.Invariant) (ht : ∀ e ∈ entries, e.Typed)
    (hroom : s.size + entries.length ≤ UInt32.size) : Admissible (entries.map .insert) s := by
  induction entries generalizing s with
  | nil => trivial
  | cons e rest ih =>
    obtain ⟨he, hrest⟩ := List.forall_mem_cons.1 ht
    rw [List.length_cons] at hroom
    have ha : (Operation.insert e).Allowed s := ⟨he, by omega⟩
    refine ⟨ha, fun t happly => ih (Operation.keeps_of_apply hs ha happly).invariant hrest ?_⟩
    have hsize := size_le_of_insert hs ha happly
    omega

theorem Reachable.filled {shape : Shape} {descriptors : List Descriptor} {entries : List Entry}
    (hc : create shape descriptors = .ok s) (ht : ∀ e ∈ entries, e.Typed)
    (hroom : entries.length ≤ UInt32.size)
    (hrun : Store.run (entries.map .insert) s = .ok t) : t.Reachable := by
  have hsize := size_create hc
  exact (created hc).run (admissible_inserts (create_spec hc).1 ht (by omega)) hrun

theorem exists_run (hs : s.Invariant) {ops : List Operation} (ha : Admissible ops s) :
    ∃ t, run ops s = .ok t ∧ s.Keeps t := by
  induction ops generalizing s with
  | nil => exact ⟨s, rfl, .refl hs⟩
  | cons op rest ih =>
    obtain ⟨hallowed, hrest⟩ := ha
    obtain ⟨t, happly, ht⟩ := op.exists_apply hs hallowed
    obtain ⟨u, hrun, hu⟩ := ih ht.invariant (hrest t happly)
    exact ⟨u, by rw [run, happly]; exact hrun, ht.trans hu⟩

/-- Every run from a fresh store goes through, and leaves the indices in agreement. -/
theorem run_consistent {shape : Shape} {descriptors : List Descriptor} {ops : List Operation}
    (hc : create shape descriptors = .ok s) (ha : Admissible ops s) :
    ∃ t, run ops s = .ok t ∧ t.shape = shape ∧ t.Consistent := by
  obtain ⟨hs, hshape, _⟩ := create_spec hc
  obtain ⟨t, hrun, ht⟩ := exists_run hs ha
  exact ⟨t, hrun, ht.shape.trans hshape, ht.invariant.consistent⟩

theorem Admissible.append {first second : List Operation} (hfirst : Admissible first s)
    (hsecond : ∀ t, Store.run first s = .ok t → Admissible second t) :
    Admissible (first ++ second) s := by
  induction first generalizing s with
  | nil => exact hsecond s rfl
  | cons op rest ih =>
    obtain ⟨hallowed, hrest⟩ := hfirst
    refine ⟨hallowed, fun t happly => ih (hrest t happly) fun u hrun => hsecond u ?_⟩
    rw [Store.run, happly]
    exact hrun

theorem admissible_edits (hs : s.Invariant) {changes : List (Handle × List Edit)}
    (hchanges : ∀ change ∈ changes, ∀ edit ∈ change.2, edit.Fits s.shape) :
    Admissible (changes.map fun change => .update change.1 (Edit.applyAll change.2)) s := by
  induction changes generalizing s with
  | nil => trivial
  | cons change rest ih =>
    obtain ⟨hchange, hrest⟩ := List.forall_mem_cons.1 hchanges
    have ha : (Operation.update change.1 (Edit.applyAll change.2)).Allowed s :=
      (total_applyAll hchange).held hs change.1
    refine ⟨ha, fun t happly => ?_⟩
    have hkeeps := Operation.keeps_of_apply hs ha happly
    exact ih hkeeps.invariant (hkeeps.shape ▸ hrest)

def samplePair (a b : Int32) : Entry := ⟨⟨[.int, .int]⟩, [.int a, .int b]⟩

def sampleLayout : List Descriptor :=
  [.ofForm (.hash [1] true), .ofForm (.heap .ascending [1] 2), .ofForm (.tree [2] false)]

def sampleFill : List Operation :=
  [.insert (samplePair 1 30), .insert (samplePair 1 40), .insert (samplePair 2 20)]

/-- An amount added in place, and then a key that another entry has. -/
def sampleChanges : List Operation :=
  [(⟨0, 0⟩, [.accumulate .plus 2 (.int 5)]), (⟨0, 0⟩, [.set 1 (.int 2)])].map fun change =>
    .update change.1 (Edit.applyAll change.2)

theorem admissible_sampleFill (hs : create ⟨[.int, .int]⟩ sampleLayout = .ok s) :
    Admissible sampleFill s := by
  have hroom : s.size + 3 ≤ UInt32.size := by rw [size_create hs]; decide
  have hfill : Admissible ([samplePair 1 30, samplePair 1 40, samplePair 2 20].map .insert) s :=
    admissible_inserts (create_spec hs).1 (by decide) hroom
  exact hfill

theorem admissible_samples (hs : create ⟨[.int, .int]⟩ sampleLayout = .ok s) :
    Admissible (sampleFill ++ sampleChanges) s := by
  obtain ⟨hinv, hshape, _⟩ := create_spec hs
  have hfill := admissible_sampleFill hs
  refine hfill.append fun t ht => ?_
  obtain ⟨t', ht', hkeeps⟩ := exists_run hinv hfill
  obtain rfl := Except.ok.inj (ht.symm.trans ht')
  refine admissible_edits hkeeps.invariant ?_
  rw [hkeeps.shape, hshape]
  simp only [List.forall_mem_cons, List.not_mem_nil, false_imp_iff, implies_true, and_true]
  exact ⟨⟨nofun, rfl, rfl⟩, nofun, rfl⟩

/-- A run with refused operations leaves the indices in agreement: the second insertion and the last
update are refused, as they would be again, and the third entry has the slot of the second. -/
theorem run_consistent_of_refusals : ∃ s, create ⟨[.int, .int]⟩ sampleLayout = .ok s ∧
    Admissible (sampleFill ++ sampleChanges) s ∧
    ∃ t, run (sampleFill ++ sampleChanges) s = .ok t ∧
      t.shape = ⟨[.int, .int]⟩ ∧ t.Consistent ∧ t.size = 2 ∧
      t.entry? ⟨0, 0⟩ = some (samplePair 1 35) ∧ t.entry? ⟨1, 0⟩ = none ∧
      t.entry? ⟨1, 1⟩ = some (samplePair 2 20) ∧
      t.indices.map (fun d => d.index.tally) = [⟨2, 2, 2⟩, ⟨2, 2, 2⟩, ⟨2, 2, 2⟩] ∧
      Prod.fst <$> t.insert (samplePair 1 40) = .ok (.error (.duplicateKey 0 [.int 1])) ∧
      Prod.fst <$> t.update ⟨0, 0⟩ (Edit.applyAll [.set 1 (.int 2)]) =
        .ok (.error (.duplicateKey 0 [.int 2])) := by
  obtain ⟨s, hs⟩ : ∃ s, create ⟨[.int, .int]⟩ sampleLayout = .ok s := ⟨_, rfl⟩
  have ha := admissible_samples hs
  obtain ⟨t, ht, hshape, hconsistent⟩ := run_consistent hs ha
  refine ⟨s, hs, ha, t, ht, hshape, hconsistent, ?_⟩
  have hmem : t ∈ (run (sampleFill ++ sampleChanges) s).toOption := by rw [ht]; rfl
  clear ha ht hshape hconsistent
  obtain rfl := Except.ok.inj hs
  revert t
  decide +kernel

end Store
end IndexedStore
