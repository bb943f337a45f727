import IndexedStore.Proofs.EntryEdits
import IndexedStore.Proofs.Growth
import IndexedStore.Proofs.Lookups

/-!
# Steps of a store

Every operation on a store that keeps the invariant answers, and leaves a store that keeps it, of
the same shape. What an operation asks for is that the slot it names exists, that its probe has the
shape of the store and that its mutation answers, for the entries it can meet, with well-typed ones.
-/
namespace IndexedStore.Store

variable {s t : Store} {h : Handle} {e probe : Entry} {slot : Nat} {d : Declared}

/-- A mutation that answers with a well-typed entry, wherever it is asked to. -/
def Total {ρ : Type} (asked : Entry → Prop) (mutate : Entry → Checked (Entry × ρ)) : Prop :=
  ∀ e, asked e → ∃ e' answer, mutate e = .ok (e', answer) ∧ e'.Typed

/-- A mutation leaves an entry well-typed, if it answers. -/
def KeepsTypes {ρ : Type} (mutate : Entry → Checked (Entry × ρ)) : Prop :=
  ∀ e new answer, e.Typed → mutate e = .ok (new, answer) → new.Typed

theorem Total.typed {ρ : Type} {asked : Entry → Prop} {mutate : Entry → Checked (Entry × ρ)}
    (hm : Total asked mutate) (he : asked e) {new : Entry} {answer : ρ}
    (hnew : mutate e = .ok (new, answer)) : new.Typed := by
  obtain ⟨new', answer', hnew', htyped⟩ := hm e he
  obtain ⟨rfl, -⟩ : new = new' ∧ answer = answer' := by simpa using hnew.symm.trans hnew'
  exact htyped

theorem Total.held {ρ : Type} {mutate : Entry → Checked (Entry × ρ)} (hs : s.Invariant)
    (hm : Total (Entry.Conforms · s.shape) mutate) (h : Handle) :
    Total (s.entry? h = some ·) mutate :=
  fun e he => hm e (hs.conforms he)

theorem total_applyAll {shape : Shape} {edits : List Edit}
    (hedits : ∀ edit ∈ edits, edit.Fits shape) :
    Total (Entry.Conforms · shape) (Edit.applyAll edits) := by
  intro e he
  obtain ⟨left, outcomes, happly, hleft⟩ := Edit.exists_applyAll hedits he
  exact ⟨left, outcomes, happly, hleft.typed⟩

theorem keepsTypes_applyAll {edits : List Edit} (hedits : ∀ edit ∈ edits, edit.Brings Entry.Typed) :
    KeepsTypes (Edit.applyAll edits) :=
  fun _ _ _ he hnew => Edit.typed_of_applyAll he hedits hnew

structure Keeps (s t : Store) : Prop where
  invariant : t.Invariant
  shape : t.shape = s.shape

theorem Keeps.refl (hs : s.Invariant) : s.Keeps s := ⟨hs, rfl⟩

theorem Keeps.trans {u : Store} (hst : s.Keeps t) (htu : t.Keeps u) : s.Keeps u :=
  ⟨htu.invariant, htu.shape.trans hst.shape⟩

/-! ## Queries -/

theorem declared_eq (hd : s.indices[slot]? = some d) : s.declared slot = .ok d :=
  Checked.itemAt_eq hd

theorem getHandle_eq (hp : probe.Conforms s.shape) (hd : s.indices[slot]? = some d) :
    s.getHandle slot probe = d.index.get s.source probe := by
  simp [getHandle, checkKey, hp.shape_eq, declared_eq hd]

section Queries

variable (hs : s.Invariant) (hp : probe.Conforms s.shape) (hd : s.indices[slot]? = some d)
include hs hp hd

theorem slice_eq : s.slice slot probe = .ok (s.resolve (d.index.hits s.source probe)) := by
  have hmem := List.mem_of_getElem? hd
  have hslice := (hs.sound d hmem).filed.slice_eq (hs.stands d hmem).reads hs.conforms hp
  simp [slice, checkKey, hp.shape_eq, declared_eq hd, hslice]

theorem exists_slice_handles : ∃ found, s.slice slot probe = .ok found ∧
    found.map Prod.fst = d.index.hits s.source probe ∧
    ∀ item ∈ found, s.source item.1 = some item.2 := by
  have hi := hs.sound d (List.mem_of_getElem? hd)
  exact ⟨_, slice_eq hs hp hd, resolve_spec fun h hh =>
    (hi.complete h).1 (Index.mem_handles_of_mem_hits hi.filed hh)⟩

theorem exists_getHandle : ∃ found, s.getHandle slot probe = .ok found := by
  have hmem := List.mem_of_getElem? hd
  rw [getHandle_eq hp hd]
  exact (hs.sound d hmem).filed.exists_get (hs.stands d hmem).reads hs.conforms hp

theorem exists_get : ∃ found, s.get slot probe = .ok found := by
  obtain ⟨found, hfound⟩ := exists_getHandle hs hp hd
  exact ⟨found.bind s.entry?, by rw [get, hfound]; rfl⟩

end Queries

theorem lt_of_findHeap? {order : Direction} {group : List Nat} {target : Nat}
    (hf : s.findHeap? order group target = some slot) : slot < s.indices.length := by
  rw [findHeap?, List.findIdx?_eq_some_iff_getElem] at hf
  obtain ⟨hlt, _⟩ := hf
  simpa [descriptors] using hlt

theorem exists_peek (hs : s.Invariant) (hp : probe.Conforms s.shape) (order : Direction)
    (group : List Nat) (target : Nat) : ∃ found, s.peek order probe group target = .ok found := by
  rw [peek]
  split
  next slot hf =>
    exact exists_get hs hp (List.getElem?_eq_getElem (lt_of_findHeap? hf))
  next => exact ⟨none, rfl⟩

/-! ## Updates -/

section Updates

variable {ρ : Type} {mutate : Entry → Checked (Entry × ρ)}

def Updated (s : Store) (h : Handle) (mutate : Entry → Checked (Entry × ρ)) :
    Except Error (Option ρ) → Store → Prop
  | .ok none, t => s.source h = none ∧ t = s
  | .ok (some answer), t => ∃ old new, s.source h = some old ∧ mutate old = .ok (new, answer) ∧
      t.source = Function.update s.source h (some new)
  | .error refusal, t => ∃ old new answer, s.source h = some old ∧ mutate old = .ok (new, answer) ∧
      (new.shape ≠ s.shape ∧ t = s ∨ new.Conforms s.shape ∧ Moved s h old new (some refusal) t)

theorem update_spec (hs : s.Invariant) (hm : Total (s.entry? h = some ·) mutate) :
    ∃ answer t, s.update h mutate = .ok (answer, t) ∧ s.Keeps t ∧
      t.descriptors = s.descriptors ∧ Updated s h mutate answer t := by
  rw [update]
  cases hh : s.entry? h with
  | none => exact ⟨.ok none, s, rfl, .refl hs, rfl, hh, rfl⟩
  | some old =>
    have hold : s.source h = some old := hh
    obtain ⟨new, answer, hnew, htyped⟩ := hm old hh
    dsimp only
    rw [hnew, Checked.ok_bind]
    dsimp only
    split
    next hshape =>
      exact ⟨_, s, rfl, .refl hs, rfl, old, new, answer, hold, hnew, .inl ⟨hshape, rfl⟩⟩
    next hshape =>
      have hn : new.Conforms s.shape := ⟨htyped, by simpa using hshape⟩
      obtain ⟨refusal, t, hmove, hinv, htshape, hdesc, hmoved⟩ := move_spec hs hold hn
      rw [hmove, Checked.ok_bind]
      cases refusal with
      | none =>
        exact ⟨.ok (some answer), t, rfl, ⟨hinv, htshape⟩, hdesc, old, new, hold, hnew, hmoved⟩
      | some refusal =>
        exact ⟨.error refusal, t, rfl, ⟨hinv, htshape⟩, hdesc, old, new, answer, hold, hnew,
          .inr ⟨hn, hmoved⟩⟩

end Updates

section Slices

variable {σ : Type} {mutate : σ → Entry → Checked (Entry × σ)}

theorem updateAll_spec (hs : s.Invariant)
    (hm : ∀ state, Total (Entry.Conforms · s.shape) (mutate state))
    (hits : List Handle) (count : Nat) (state : σ) :
    ∃ answer t, updateAll mutate hits count state s = .ok (answer, t) ∧ s.Keeps t := by
  induction hits generalizing count state s with
  | nil => exact ⟨.ok (count, state), s, rfl, .refl hs⟩
  | cons h rest ih =>
    obtain ⟨answer, t, hupdate, hkeeps, _⟩ := update_spec hs ((hm state).held hs h)
    rw [updateAll, hupdate, Checked.ok_bind]
    have ih := @ih t hkeeps.invariant (hkeeps.shape ▸ hm)
    match answer with
    | .error err => exact ⟨.error err, t, rfl, hkeeps⟩
    | .ok none =>
      obtain ⟨answer, u, hrest, hu⟩ := ih count state
      exact ⟨answer, u, hrest, hkeeps.trans hu⟩
    | .ok (some state) =>
      obtain ⟨answer, u, hrest, hu⟩ := ih (count + 1) state
      exact ⟨answer, u, hrest, hkeeps.trans hu⟩

theorem sliceUpdate_spec (hs : s.Invariant) (hp : probe.Conforms s.shape)
    (hslot : slot < s.indices.length)
    (hm : ∀ state, Total (Entry.Conforms · s.shape) (mutate state)) (state : σ) :
    ∃ answer t, s.sliceUpdate slot probe state mutate = .ok (answer, t) ∧ s.Keeps t := by
  rw [sliceUpdate, slice_eq hs hp (List.getElem?_eq_getElem hslot), Checked.ok_bind]
  exact updateAll_spec hs hm _ 0 state

end Slices

/-! ## Deletions -/

/-- A deletion takes the handle out of every index and out of the slab. -/
theorem delete_live (hs : s.Invariant) {e : Entry} (hh : s.source h = some e) :
    ∃ indices slab, s.delete h = .ok (some e, { s with indices, slab }) ∧
      List.Forall₂ (fun d d' => d'.descriptor = d.descriptor ∧ d.index.remove h e = .ok d'.index)
        s.indices indices ∧
      slab.Sound ∧ slab.get? = Function.update s.source h none := by
  obtain ⟨indices, hremove, hall⟩ : ∃ indices, (s.indices.mapM fun d => (do
      return { d with index := ← d.index.remove h e } : Checked Declared)) = .ok indices ∧
      List.Forall₂ (fun d d' => d'.descriptor = d.descriptor ∧ d.index.remove h e = .ok d'.index)
        s.indices indices := by
    refine Checked.exists_mapM_of_forall₂ (List.forall₂_same.2 fun _ _ => rfl) ?_
    rintro d hd _ rfl
    obtain ⟨j, hj, _⟩ := (hs.sound d hd).remove (hs.stands d hd).reads (hs.conforms hh) hh
    exact ⟨{ d with index := j }, by simp [hj], rfl, hj⟩
  obtain ⟨slab, hslab, hsound, hget⟩ := Slab.remove_sound hs.slab hh
  have hentry : s.entry? h = some e := hh
  refine ⟨indices, slab, ?_, hall, hsound, hget⟩
  rw [delete, hentry]
  dsimp only
  rw [hremove, hslab]
  rfl

theorem delete_spec (hs : s.Invariant) (h : Handle) : ∃ t, s.delete h = .ok (s.source h, t) ∧
    s.Keeps t ∧ t.descriptors = s.descriptors ∧ t.source = Function.update s.source h none := by
  cases hh : s.source h with
  | none =>
    have hentry : s.entry? h = none := hh
    refine ⟨s, by rw [delete, hentry]; rfl, .refl hs, rfl, ?_⟩
    rw [← hh, Function.update_eq_self]
  | some e =>
    obtain ⟨indices, slab, hdelete, hall, hsound, hget⟩ := delete_live hs hh
    let t : Store := { s with indices, slab }
    have hdesc : t.descriptors = s.descriptors :=
      Checked.map_eq_of_forall₂ hall fun d d' hd => hd.1
    refine ⟨t, hdelete, ⟨?_, rfl⟩, hdesc, hget⟩
    refine hs.of_indices (t := t) hsound rfl ?_ (fun d' hd' => ?_) hdesc
    · change Source.Conforms slab.get? s.shape
      exact hget ▸ conforms_erase hs.conforms
    · obtain ⟨d, hd, hdescriptor, hremove⟩ := Checked.exists_of_mem_right hall hd'
      obtain ⟨j, hj, hj', hb⟩ :=
        (hs.sound d hd).remove (hs.stands d hd).reads (hs.conforms hh) hh
      obtain rfl := Except.ok.inj (hremove.symm.trans hj)
      change d'.Stands s.shape ∧ d'.index.Sound slab.get?
      exact ⟨(hs.stands d hd).congr hdescriptor hb, hget ▸ hj'⟩

theorem deleteByKey_spec (hs : s.Invariant) (hp : probe.Conforms s.shape)
    (hslot : slot < s.indices.length) :
    ∃ removed t, s.deleteByKey slot probe = .ok (removed, t) ∧ s.Keeps t := by
  obtain ⟨found, hfound⟩ := exists_getHandle hs hp (List.getElem?_eq_getElem hslot)
  rw [deleteByKey, hfound, Checked.ok_bind]
  cases found with
  | none => exact ⟨none, s, rfl, .refl hs⟩
  | some h =>
    obtain ⟨t, hdelete, hkeeps, _⟩ := delete_spec hs h
    exact ⟨_, t, hdelete, hkeeps⟩

theorem descriptors_clear : s.clear.descriptors = s.descriptors := by
  simp [clear, descriptors, Function.comp_def]

theorem clear_spec (hs : s.Invariant) : s.Keeps s.clear := by
  have hempty : ∀ h, s.clear.source h = none := fun h => Slab.clear_get?
  refine ⟨hs.of_indices (t := s.clear) (Slab.clear_sound hs.slab) rfl ?_ (fun d' hd' => ?_)
    descriptors_clear, rfl⟩
  · intro h e he
    rw [hempty] at he
    cases he
  · obtain ⟨d, hd, rfl⟩ := List.mem_map.1 hd'
    exact ⟨(hs.stands d hd).with_index Index.clear_blank,
      Index.sound_of_empty Index.clear_filed Index.handles_clear hempty⟩

/-- Removals of distinct handles answer the entries behind them in turn, and a clearing leaves the
same slab after them as before. -/
theorem exists_removeAll {slab : Slab Entry} (hslab : slab.Sound) {hs : List Handle}
    (hn : hs.Nodup) : ∃ slab', removeAll hs slab = .ok (hs.filterMap slab.get?, slab') ∧
      slab'.clear = slab.clear := by
  induction hs generalizing slab with
  | nil => exact ⟨slab, rfl, rfl⟩
  | cons h rest ih =>
    obtain ⟨hnew, hrest⟩ := List.nodup_cons.1 hn
    obtain ⟨next, hremove, hnext, hget⟩ := Slab.exists_remove hslab h
    obtain ⟨last, hall, hclear⟩ := ih hnext hrest
    have hsame : rest.filterMap next.get? = rest.filterMap slab.get? :=
      List.filterMap_congr fun k hk => by
        rw [hget, Function.update_of_ne (ne_of_mem_of_not_mem hk hnew)]
    refine ⟨last, ?_, hclear.trans (Slab.clear_remove hremove)⟩
    rw [removeAll, hremove, Checked.ok_bind]
    dsimp only
    rw [hall, Checked.ok_bind, hsame, List.filterMap_cons]
    cases slab.get? h <;> rfl

theorem drain_spec (hs : s.Invariant) :
    s.drain = .ok (s.handles.filterMap s.source, s.clear) := by
  obtain ⟨slab, hall, hclear⟩ := exists_removeAll hs.slab hs.handles_spec.1
  rw [drain, hall, Checked.ok_bind]
  simp only [clear, hclear, Checked.pure_eq_ok]
  rfl

/-! ## Heaps on first use -/

/-- A call for the foremost entry answers; it adds indices at most, and none if it is refused. -/
theorem extreme_spec (hs : s.Invariant) (hp : probe.Conforms s.shape) (order : Direction)
    (group : List Nat) (target : Nat) :
    ∃ answer t, s.extreme order probe group target = .ok (answer, t) ∧ s.Keeps t ∧
      t.slab = s.slab ∧ ∀ err, answer = .error err → t = s := by
  rw [extreme]
  cases hf : s.findHeap? order group target with
  | some slot =>
    obtain ⟨found, hfound⟩ := exists_get hs hp (List.getElem?_eq_getElem (lt_of_findHeap? hf))
    exact ⟨.ok found, s, by simp [hfound], .refl hs, rfl, fun _ _ => rfl⟩
  | none =>
    obtain ⟨result, t, hadd, ht, hshape, hslab, hresult⟩ := addHeap_spec hs order group target
    dsimp only
    rw [hadd, Checked.ok_bind]
    cases result with
    | error err => exact ⟨.error err, t, rfl, ⟨ht, hshape⟩, hslab, fun _ _ => hresult.2⟩
    | ok =>
      obtain ⟨found, hfound⟩ := exists_peek ht (hshape ▸ hp) order group target
      exact ⟨.ok found, t, by simp [hfound], ⟨ht, hshape⟩, hslab, by rintro _ ⟨⟩⟩

end IndexedStore.Store
