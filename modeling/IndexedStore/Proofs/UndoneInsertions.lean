import IndexedStore.Proofs.Retractions
import IndexedStore.Proofs.Runs

/-!
# Insertions that leave no trace

An insertion that some index refuses is undone in the indices before it, and a deletion takes the
inserted entry out of every index. Either way each index lets go of a handle right after it took it,
so the store has the content from before.
-/
namespace IndexedStore

def Declared.unpeaked (d : Declared) : Declared := { d with index := d.index.unpeaked }

theorem Declared.unpeaked_congr {d d' : Declared} (hdesc : d'.descriptor = d.descriptor)
    (hindex : d'.index.unpeaked = d.index.unpeaked) : d'.unpeaked = d.unpeaked := by
  rw [unpeaked, unpeaked, hdesc, hindex]

namespace Store

variable {s : Store} {h : Handle} {e : Entry}

/-- Two stores with the same live entries, and with the same indices but for their peaks. -/
structure SameContent (s t : Store) : Prop where
  shape : t.shape = s.shape
  size : t.size = s.size
  entries : ∀ h, t.entry? h = s.entry? h
  indices : t.indices.map Declared.unpeaked = s.indices.map Declared.unpeaked

/-- What an insertion and a deletion right after it have to answer: the content is the same after a
refused insertion, and after the deletion of the entry that was inserted. -/
def Retracted (s : Store) (e : Entry) : Except Error Handle × Store → Prop
  | (.error _, t) => s.SameContent t
  | (.ok h, t) => ∃ u, t.delete h = .ok (some e, u) ∧ s.SameContent u

section Insertion

variable (hs : s.Invariant) (he : e.Conforms s.shape) (hfree : s.source h = none)
include hs he hfree

theorem unpeaked_of_retracted (after : Source) {placed : List Declared}
    (hall : List.Forall₂ (fun d d' => d'.descriptor = d.descriptor ∧ (d'.index = d.index ∨
      ∃ j, d.index.add after h e = .ok (.ok j) ∧ j.remove h e = .ok d'.index)) s.indices placed) :
    placed.map Declared.unpeaked = s.indices.map Declared.unpeaked := by
  have hmem := (List.forall₂_and_left s.indices placed).2 ⟨fun _ hd => hd, hall⟩
  refine Checked.map_eq_of_forall₂ hmem ?_
  rintro d d' ⟨hd, hdesc, hindex⟩
  refine Declared.unpeaked_congr hdesc ?_
  obtain hsame | ⟨j, hadd, hremove⟩ := hindex
  · rw [hsame]
  · exact Index.unpeaked_undone (hs.sound d hd) (hs.stands d hd).reads hfree he hadd hremove

end Insertion

theorem Insertion.retracted (hs : s.Invariant) (he : e.Conforms s.shape)
    {out : Except Error Handle × Store} (hout : s.Insertion e out) : s.Retracted e out := by
  cases hout with
  | @taken h slab placed hfree hslab hget _ htook =>
    obtain ⟨_, ht⟩ := invariant_of_took hs he hfree hslab hget htook
    have hlive : Store.source { s with indices := placed, slab } h = some e := by
      change slab.get? h = some e
      rw [hget, Function.update_self]
    obtain ⟨indices, slab', hdelete, hall, hslab', hget'⟩ := delete_live ht hlive
    have hback : slab'.get? = s.source := by
      rw [hget']
      change Function.update slab.get? h none = s.source
      rw [hget]
      exact update_undone hfree e
    refine ⟨_, hdelete, rfl, Slab.size_congr hs.slab hslab' hback, congrFun hback,
      unpeaked_of_retracted hs he hfree slab.get? ?_⟩
    rw [markAll, List.forall₂_map_left_iff] at htook
    refine (Checked.forall₂_trans htook hall).imp ?_
    rintro d d' ⟨m, ⟨hdesc, hadd⟩, hdesc', hremove⟩
    exact ⟨hdesc'.trans hdesc, .inr ⟨m.index, hadd, hremove⟩⟩
  | @undone h slab slab' refusal placed hfree hget hslab' hback _ hundid =>
    refine ⟨rfl, Slab.size_congr hs.slab hslab' hback, congrFun hback,
      unpeaked_of_retracted hs he hfree slab.get? ?_⟩
    rw [markAll, List.forall₂_map_left_iff] at hundid
    refine hundid.imp ?_
    rintro d d' ⟨hdesc, hsame | ⟨_, hundone⟩⟩
    · exact ⟨hdesc, .inl hsame⟩
    · exact ⟨hdesc, .inr hundone⟩

/-- In every store that a run leads to, a refused insertion leaves the content as it was, and so does
an insertion followed by the deletion of its entry. -/
theorem insert_retracted (hr : s.Reachable) (ha : (Operation.insert e).Allowed s) :
    ∃ out, s.insert e = .ok out ∧ s.Retracted e out := by
  have hs := hr.invariant
  by_cases hshape : e.shape = s.shape
  · have he : e.Conforms s.shape := ⟨ha.1, hshape⟩
    obtain ⟨out, hinsert, hout⟩ := exists_insertion hs he (hs.slab.hasRoom ha.2)
    exact ⟨out, hinsert, hout.retracted hs he⟩
  · refine ⟨(.error (.shapeMismatch s.shape e.shape), s), ?_, rfl, rfl, fun _ => rfl, rfl⟩
    rw [insert, if_pos hshape]
    rfl

def guardedLayout : List Descriptor :=
  [.ofForm (.list []), .ofForm (.heap .ascending [1] 2), .ofForm (.hash [2] true)]

def guardedPairs : List Entry := [samplePair 1 30, samplePair 1 40, samplePair 2 5]

/-- An entry that rises to the root of a heap leaves no trace there, whether a later index refuses
it or it is deleted. -/
theorem insert_retracted_of_heap : ∃ s, Reachable s ∧
    (∃ t, s.insert (samplePair 1 5) = .ok (.error (.duplicateKey 2 [.int 5]), t) ∧
      s.SameContent t) ∧
    ∃ t u, s.insert (samplePair 1 7) = .ok (.ok ⟨3, 0⟩, t) ∧
      t.delete ⟨3, 0⟩ = .ok (some (samplePair 1 7), u) ∧ s.SameContent u := by
  obtain ⟨s, hs⟩ : ∃ s, create ⟨[.int, .int]⟩ guardedLayout = .ok s := ⟨_, rfl⟩
  obtain ⟨t, ht⟩ : ∃ t, run (guardedPairs.map .insert) s = .ok t := by
    obtain rfl := Except.ok.inj hs
    exact ⟨_, rfl⟩
  have hr : Reachable t := .filled hs (by decide) (by decide) ht
  have hfacts : ((Operation.insert (samplePair 1 5)).Allowed t ∧
        ∃ u, t.insert (samplePair 1 5) = .ok (.error (.duplicateKey 2 [.int 5]), u)) ∧
      (Operation.insert (samplePair 1 7)).Allowed t ∧
        ∃ u, t.insert (samplePair 1 7) = .ok (.ok ⟨3, 0⟩, u) := by
    obtain rfl := Except.ok.inj hs
    obtain rfl := Except.ok.inj ht
    exact ⟨⟨⟨rfl, by decide⟩, ⟨_, rfl⟩⟩, ⟨rfl, by decide⟩, ⟨_, rfl⟩⟩
  obtain ⟨⟨hrefused, u, hu⟩, hallowed, v, hv⟩ := hfacts
  obtain ⟨_, hinsert, hretracted⟩ := insert_retracted hr hrefused
  obtain ⟨_, hinsert', hretracted'⟩ := insert_retracted hr hallowed
  obtain rfl := Except.ok.inj (hinsert.symm.trans hu)
  obtain rfl := Except.ok.inj (hinsert'.symm.trans hv)
  obtain ⟨w, hdelete, hsame⟩ := hretracted'
  exact ⟨t, hr, ⟨u, hu, hretracted⟩, v, w, hv, hdelete, hsame⟩

end Store
end IndexedStore
