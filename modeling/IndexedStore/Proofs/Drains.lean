import IndexedStore.Proofs.Handlings
import IndexedStore.Proofs.SharedContents

/-!
# Drains

A drain takes the entries out of the slab one by one, in the order of the primary index, and clears
the store then. A cell that is vacant already is not vacated again, so this leaves what a clearing
alone leaves: no index holds a handle, and no handle reaches anything. Nor will one again while no
generation wraps, for every handle that is given up leaves a later generation in its slot.
-/
namespace IndexedStore

namespace Slab

variable {α : Type} {s t : Slab α} {h : Handle} {x : α}

/-- The generation of the cell of a slot; cells open in generation zero. -/
def generation (s : Slab α) (slot : Nat) : UInt32 :=
  (s.cells[slot]?.map Cell.generation).getD 0

def Unwrapped (s t : Slab α) : Prop := ∀ slot < s.cells.size, s.generation slot ≤ t.generation slot

instance : Decidable (s.Unwrapped t) := inferInstanceAs (Decidable (∀ slot < _, _))

theorem Unwrapped.le (hst : s.Unwrapped t) (slot : Nat) : s.generation slot ≤ t.generation slot := by
  by_cases hb : slot < s.cells.size
  · exact hst slot hb
  · have hzero : s.generation slot = 0 := by simp [generation, hb]
    rw [hzero]
    exact UInt32.zero_le

theorem generation_of_get? (hx : s.get? h = some x) : s.generation h.slot.toNat = h.generation := by
  obtain ⟨cell, hc, hg, -⟩ := get?_eq_some_iff.1 hx
  simp [generation, hc, hg]

/-- Whether every handle that reaches something in a slab still does in another, or else leaves
another generation in its slot. -/
def Retires (s t : Slab α) : Prop := ∀ h, (s.get? h).isSome →
  (t.get? h).isSome ∨ t.generation h.slot.toNat ≠ h.generation

theorem Retires.refl (s : Slab α) : s.Retires s := fun _ => .inl

theorem retires_of_isSome (hst : ∀ h, (s.get? h).isSome → (t.get? h).isSome) : s.Retires t :=
  fun h hh => .inl (hst h hh)

/-! ## What gives a handle up -/

theorem remove_retires (hs : s.Sound) {y : Option α} (hremove : s.remove h = .ok (y, t)) :
    s.Retires t := by
  intro k hk
  obtain ⟨t', hremove', _, hget⟩ := exists_remove hs h
  obtain ⟨-, rfl⟩ := Prod.mk.inj (Except.ok.inj (hremove.symm.trans hremove'))
  by_cases hkh : k = h
  · subst hkh
    obtain ⟨x, hx⟩ := Option.isSome_iff_exists.1 hk
    obtain ⟨cell, hc, -⟩ := get?_eq_some_iff.1 hx
    have hb : k.slot.toNat < s.cells.size := (Array.getElem?_eq_some_iff.1 hc).1
    right
    simp [generation, remove_cells hx hremove, hb]
  · left
    rwa [hget, Function.update_of_ne hkh]

theorem clear_generation (hx : s.get? h = some x) :
    s.clear.generation h.slot.toNat = h.generation + 1 := by
  obtain ⟨cell, hc, hg, hn⟩ := get?_eq_some_iff.1 hx
  simp [generation, clear, hc, Cell.vacate, hn, hg]

theorem clear_retires : s.Retires s.clear := by
  intro h hh
  obtain ⟨x, hx⟩ := Option.isSome_iff_exists.1 hh
  right
  simp [clear_generation hx]

/-! ## What issues one -/

theorem insert_generation (hs : s.Sound) (hroom : s.HasRoom) (hinsert : s.insert x = .ok (h, t)) :
    t.generation = s.generation ∧ h.generation = s.generation h.slot.toNat := by
  rw [insert] at hinsert
  cases hv : s.vacant with
  | cons slot vacant =>
    obtain ⟨cell, hc, -⟩ := (hs.vacant slot).1 (by simp [hv])
    have hb : slot.toNat < s.cells.size := (Array.getElem?_eq_some_iff.1 hc).1
    simp only [hv, hc, Except.ok.injEq, Prod.mk.injEq] at hinsert
    obtain ⟨rfl, rfl⟩ := hinsert
    refine ⟨funext fun i => ?_, by simp [generation, hc]⟩
    rw [generation, Array.getElem?_setIfInBounds]
    split
    next hi => simp [generation, ← hi, hb, (Array.getElem?_eq_some_iff.1 hc).2]
    next => rfl
  | nil =>
    have hb : s.cells.size < UInt32.size := hroom.resolve_left (by simp [hv])
    have hslot : (UInt32.ofNat s.cells.size).toNat = s.cells.size := UInt32.toNat_ofNat_of_lt' hb
    simp only [hv, Except.ok.injEq, Prod.mk.injEq] at hinsert
    obtain ⟨rfl, rfl⟩ := hinsert
    refine ⟨funext fun i => ?_, by simp [generation, hslot]⟩
    rw [generation, Array.getElem?_push]
    split
    next hi => simp [generation, hi]
    next => rfl

end Slab

namespace Store

variable {s t : Store} {h : Handle} {e : Entry}

/-! ## What a drain leaves -/

/-- A drain answers the entries in the order of a walk, and leaves what a clearing leaves. -/
theorem drain_eq (hs : s.Invariant) : s.drain = .ok (s.entries, s.clear) := by
  rw [drain_spec hs, entries_eq]

/-- What a store without entries is, in the slab and in every index. -/
structure Vacant (s : Store) : Prop where
  size_eq : s.size = 0
  slab_empty : s.slab.toList = []
  indices_empty : ∀ d ∈ s.indices, d.index.handles = [] ∧ d.index.size = 0
  unresolved : ∀ h, s.entry? h = none

theorem vacant_of_source (hs : s.Invariant) (hnone : ∀ h, s.source h = none) : s.Vacant := by
  have hslab : s.slab.toList = [] := by
    refine List.eq_nil_iff_forall_not_mem.2 fun item hitem => ?_
    cases (hnone item.1).symm.trans ((Slab.mem_toList_iff hs.slab).1 hitem)
  have hsize : s.size = 0 := by
    rw [← hs.consistent.counted, hslab]
    rfl
  refine ⟨hsize, hslab, fun d hd => ⟨?_, (hs.consistent.sizes d hd).trans hsize⟩, hnone⟩
  refine List.eq_nil_iff_forall_not_mem.2 fun h hh => ?_
  simpa [hnone] using ((hs.sound d hd).complete h).1 hh

theorem Vacant.entries_eq (hv : s.Vacant) : s.entries = [] := by
  rw [Store.entries_eq, List.filterMap_eq_nil_iff]
  exact fun h _ => hv.unresolved h

theorem Vacant.contents_eq (hv : s.Vacant) : s.contents = 0 := by
  rw [contents, hv.slab_empty]
  rfl

theorem vacant_clear (hs : s.Invariant) : s.clear.Vacant :=
  vacant_of_source (clear_spec hs).invariant fun _ => Slab.clear_get?

/-! ## Handles of the past -/

/-- Operations lead from one store to another, and no generation wraps on the way. -/
inductive LeadsTo (s : Store) : Store → Prop
  | refl : LeadsTo s s
  | step {t u : Store} {op : Operation} : LeadsTo s t → op.Allowed t → op.apply t = .ok u →
      t.slab.Unwrapped u.slab → LeadsTo s u

section Changes

variable (hs : s.Invariant)
include hs

theorem isSome_insert (ha : (Operation.insert e).Allowed s) {answer : Except Error Handle}
    (hinsert : s.insert e = .ok (answer, t)) (h : Handle) (hh : (s.source h).isSome) :
    (t.source h).isSome := by
  obtain ⟨answer', t', hinsert', _, _, _, hinserted⟩ := insert_spec hs ha.1 (hs.slab.hasRoom ha.2)
  obtain ⟨rfl, rfl⟩ := Prod.mk.inj (Except.ok.inj (hinsert.symm.trans hinsert'))
  cases answer with
  | error err =>
    have hsource : t.source = s.source := hinserted
    rwa [hsource]
  | ok k =>
    obtain ⟨hfree, hsource⟩ := hinserted
    have hne : h ≠ k := fun heq => by simp [heq, hfree] at hh
    rwa [hsource, Function.update_of_ne hne]

theorem isSome_update {ρ : Type} {mutate : Entry → Checked (Entry × ρ)} {k : Handle}
    (hm : Total (s.entry? k = some ·) mutate) {answer : Except Error (Option ρ)}
    (hupdate : s.update k mutate = .ok (answer, t))
    (h : Handle) (hh : (s.source h).isSome) : (t.source h).isSome := by
  cases hk : s.source k with
  | none =>
    have hentry : s.entry? k = none := hk
    rw [update, hentry] at hupdate
    obtain ⟨-, rfl⟩ := Prod.mk.inj (Except.ok.inj hupdate)
    exact hh
  | some old =>
    obtain ⟨new, result, hnew, _⟩ := hm old hk
    obtain ⟨_, _, hsource⟩ | ⟨_, _, _, hsource⟩ := update_live hs hm hk hnew hupdate
    · rw [hsource]
      by_cases hhk : h = k <;> simp [hhk, hh]
    · rwa [hsource]

theorem isSome_updateAll {σ : Type} {mutate : σ → Entry → Checked (Entry × σ)}
    (hm : ∀ state, Total (Entry.Conforms · s.shape) (mutate state)) {hits : List Handle}
    {count : Nat} {state : σ} {answer : Except Error (Nat × σ)}
    (hall : updateAll mutate hits count state s = .ok (answer, t))
    (h : Handle) (hh : (s.source h).isSome) : (t.source h).isSome := by
  induction hits generalizing s count state with
  | nil =>
    obtain ⟨-, rfl⟩ := Prod.mk.inj (Except.ok.inj hall)
    exact hh
  | cons k rest ih =>
    rw [updateAll] at hall
    obtain ⟨⟨answer', u⟩, hupdate, hall⟩ := Checked.bind_eq_ok.1 hall
    have htotal := (hm state).held hs k
    have hu := isSome_update hs htotal hupdate h hh
    obtain ⟨_, _, hupdate', hkeeps, _⟩ := update_spec hs htotal
    obtain ⟨rfl, rfl⟩ := Prod.mk.inj (Except.ok.inj (hupdate.symm.trans hupdate'))
    rcases answer' with err | _ | state
    · obtain ⟨-, rfl⟩ := Prod.mk.inj (Except.ok.inj hall)
      exact hu
    · exact ih hkeeps.invariant (hkeeps.shape ▸ hm) hall hu
    · exact ih hkeeps.invariant (hkeeps.shape ▸ hm) hall hu

/-- No operation takes an entry from its handle but by leaving another generation in its slot. -/
theorem apply_retires {op : Operation} (ha : op.Allowed s) (happly : op.apply s = .ok t) :
    s.slab.Retires t.slab := by
  cases op with
  | insert e =>
    obtain ⟨⟨answer, t⟩, hinsert, rfl⟩ := Checked.map_eq_ok.1 happly
    exact Slab.retires_of_isSome (isSome_insert hs ha hinsert)
  | update k mutate =>
    obtain ⟨⟨answer, t⟩, hupdate, rfl⟩ := Checked.map_eq_ok.1 happly
    exact Slab.retires_of_isSome (isSome_update hs ha hupdate)
  | sliceUpdate slot probe state mutate =>
    obtain ⟨⟨answer, t⟩, hupdate, rfl⟩ := Checked.map_eq_ok.1 happly
    rw [sliceUpdate] at hupdate
    obtain ⟨hits, _, hall⟩ := Checked.bind_eq_ok.1 hupdate
    exact Slab.retires_of_isSome (isSome_updateAll hs ha.2.2 hall)
  | delete k =>
    obtain ⟨⟨removed, t⟩, hdelete, rfl⟩ := Checked.map_eq_ok.1 happly
    exact Slab.remove_retires hs.slab (delete_slab hdelete)
  | deleteByKey slot probe =>
    obtain ⟨⟨removed, t⟩, hdelete, rfl⟩ := Checked.map_eq_ok.1 happly
    rw [deleteByKey] at hdelete
    obtain ⟨found, _, hdelete⟩ := Checked.bind_eq_ok.1 hdelete
    cases found with
    | none =>
      obtain ⟨-, rfl⟩ := Prod.mk.inj (Except.ok.inj hdelete)
      exact Slab.Retires.refl _
    | some k => exact Slab.remove_retires hs.slab (delete_slab hdelete)
  | addIndex descriptor =>
    obtain ⟨result, hadd, hresult⟩ := addIndex_spec hs descriptor
    rw [Operation.apply, hadd, Checked.ok_bind] at happly
    cases result with
    | error err =>
      obtain rfl := Except.ok.inj happly
      exact Slab.Retires.refl _
    | ok grown =>
      obtain rfl := Except.ok.inj happly
      rw [hresult.2.2.2.1]
      exact Slab.Retires.refl _
  | extreme order probe group target =>
    obtain ⟨answer, t', hextreme, _, hslab, _⟩ := extreme_spec hs ha order group target
    rw [Operation.apply, hextreme] at happly
    obtain rfl : t' = t := Except.ok.inj happly
    rw [hslab]
    exact Slab.Retires.refl _
  | clear =>
    obtain rfl := Except.ok.inj happly
    exact Slab.clear_retires
  | drain =>
    rw [Operation.apply, drain_eq hs] at happly
    obtain rfl : s.clear = t := Except.ok.inj happly
    exact Slab.clear_retires

end Changes

theorem LeadsTo.reachable (hr : s.Reachable) (hl : s.LeadsTo t) : t.Reachable := by
  induction hl with
  | refl => exact hr
  | step _ ha happly _ ih => exact ih.step ha happly

/-- While no generation wraps, a handle that reached an entry still does, or its slot has moved on to
a later generation for good. -/
theorem LeadsTo.outlives (hr : s.Reachable) (hl : s.LeadsTo t) (hh : (s.source h).isSome) :
    (t.source h).isSome ∨ h.generation < t.slab.generation h.slot.toNat := by
  induction hl with
  | refl => exact .inl hh
  | step hl ha happly hwrap ih =>
    have hle := hwrap.le h.slot.toNat
    rcases ih with hlive | hlater
    · obtain ⟨x, hx⟩ := Option.isSome_iff_exists.1 hlive
      have hgen := Slab.generation_of_get? hx
      -- The handle had the generation of its slot, so another one can only be a later one.
      refine (apply_retires (hl.reachable hr).invariant ha happly h hlive).imp_right fun hne => ?_
      exact UInt32.lt_of_le_of_ne (hgen ▸ hle) hne.symm
    · exact .inr (UInt32.lt_of_lt_of_le hlater hle)

end Store
end IndexedStore
