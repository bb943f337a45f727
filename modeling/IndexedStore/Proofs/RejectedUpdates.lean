import IndexedStore.Proofs.Rollbacks
import IndexedStore.Proofs.Runs

/-!
# Rejected updates

What a store answers after an update that it refused. All handles reach what they reached before,
and lists, address grids and heaps answer as before. A hash index and a tree index answer as before
exactly if the handle was last wherever its order of arrival shows, for a rollback puts it there.
-/
namespace IndexedStore.Store

variable {s t : Store} {h : Handle} {old new : Entry} {slot : Nat} {d d' : Declared}

/-- Two stores answer lookups through one index alike: for a hash index, those with all key fields
set; for a heap, those for one handle. -/
def AlikeAt (s t : Store) (slot : Nat) (d : Declared) : Prop :=
  ∀ probe, Entry.Conforms probe s.shape →
    (d.descriptor.kind = .hash → d.index.projection.isPartial probe = .ok false) →
    t.getHandle slot probe = s.getHandle slot probe ∧
      (d.descriptor.kind.isHeap = false → t.slice slot probe = s.slice slot probe)

/-- Two stores answer alike whatever does not hang on the order of hash chains. -/
structure Alike (s t : Store) : Prop where
  entries : ∀ h, t.entry? h = s.entry? h
  lookups : ∀ slot d, s.indices[slot]? = some d → s.AlikeAt t slot d
  walk : ∀ d, s.indices.head? = some d →
    d.descriptor.kind = .list ∨ d.descriptor.kind = .tree ∨ d.descriptor.kind = .array →
    t.toList = s.toList

section Slots

variable (hs : s.Invariant) (ht : t.Invariant) (hslab : t.slab = s.slab) (hshape : t.shape = s.shape)
  (hd : s.indices[slot]? = some d) (hd' : t.indices[slot]? = some d')
include hs ht hslab hshape hd hd'

/-- Lookups in order are alike exactly if the probes visit the same handles in the same order. -/
theorem alikeAt_iff_hits (hk : d.descriptor.kind.isHeap = false)
    (hk' : d'.descriptor.kind = d.descriptor.kind) :
    s.AlikeAt t slot d ↔ ∀ probe, Entry.Conforms probe s.shape →
      (d.descriptor.kind = .hash → d.index.projection.isPartial probe = .ok false) →
      d'.index.hits s.source probe = d.index.hits s.source probe := by
  have hsource : t.source = s.source := by rw [source, hslab]; rfl
  have hresolve (hs' : List Handle) : t.resolve hs' = s.resolve hs' := by
    simp only [resolve, entry?, hslab]
  have hm := List.mem_of_getElem? hd
  have hm' := List.mem_of_getElem? hd'
  have hkind : d.index.kind.isHeap = false := by rw [(hs.stands d hm).describes.1, hk]
  have hkind' : d'.index.kind.isHeap = false := by rw [(ht.stands d' hm').describes.1, hk', hk]
  constructor
  · intro halike probe hp hfull
    obtain ⟨_, hslice⟩ := halike probe hp hfull
    have hslice := hslice hk
    rw [slice_eq hs hp hd, slice_eq ht (hshape ▸ hp) hd', Except.ok.injEq, hresolve,
      hsource] at hslice
    have hlive {i : Index} (hi : i.Sound s.source) :
        (s.resolve (i.hits s.source probe)).map Prod.fst = i.hits s.source probe :=
      (resolve_spec fun h hh =>
        (hi.complete h).1 (Index.mem_handles_of_mem_hits hi.filed hh)).1
    rw [← hlive (hs.sound d hm), ← hslice]
    exact (hlive (hsource ▸ ht.sound d' hm')).symm
  · intro hhits probe hp hfull
    have heq := hhits probe hp hfull
    refine ⟨?_, fun _ => ?_⟩
    · rw [getHandle_eq hp hd, getHandle_eq (hshape ▸ hp) hd',
        (hs.sound d hm).filed.get_eq_head? (hs.stands d hm).reads hs.conforms hp hkind,
        (ht.sound d' hm').filed.get_eq_head? (ht.stands d' hm').reads ht.conforms (hshape ▸ hp)
          hkind', hsource, heq]
    · rw [slice_eq hs hp hd, slice_eq ht (hshape ▸ hp) hd', hresolve, hsource, heq]

omit hs ht in
theorem alikeAt_of_eq (heq : d' = d) : s.AlikeAt t slot d := by
  subst heq
  have hsource : t.source = s.source := by rw [source, hslab]; rfl
  intro probe hp _
  refine ⟨by rw [getHandle_eq hp hd, getHandle_eq (hshape ▸ hp) hd', hsource], fun _ => ?_⟩
  simp only [slice, checkKey, hshape, declared_eq hd, declared_eq hd', hsource, resolve, entry?,
    hslab]

/-- The peek of a heap hangs on its description and on the handles it holds, not on its array. -/
theorem alikeAt_of_heap (hheap : d.descriptor.kind.isHeap = true)
    (hblank : d'.index.blank = d.index.blank) : s.AlikeAt t slot d := by
  have hsource : t.source = s.source := by rw [source, hslab]; rfl
  have hm := List.mem_of_getElem? hd
  have hsound := hs.sound d hm
  have hsound' : d'.index.Sound s.source := hsource ▸ ht.sound d' (List.mem_of_getElem? hd')
  have hreads := (hs.stands d hm).reads
  have hkind : d.index.kind.isHeap = true := by rw [(hs.stands d hm).describes.1, hheap]
  obtain ⟨g, hg⟩ := Index.exists_heap_of_kind hkind
  obtain ⟨g', hg'⟩ := Index.exists_heap_of_kind (by rw [Index.kind_congr hblank, hkind])
  rw [hg] at hsound hreads hblank
  rw [hg'] at hsound' hblank
  refine fun probe hp _ => ⟨?_, fun hfalse => ?_⟩
  · rw [getHandle_eq hp hd, getHandle_eq (hshape ▸ hp) hd', hsource, hg, hg']
    exact Index.get_heap_congr hsound hsound' hreads hblank hp
  · rw [hheap] at hfalse
    cases hfalse

variable (hh : s.source h = some old) (hn : new.Conforms s.shape)
  (hrestored : Restored s.source h old new d d')
include hh hn hrestored

/-- An index that was rolled back answers alike exactly if it was not concerned, or if the handle
trailed in it; a walk over it is alike then. -/
theorem restored_alike_iff :
    (s.AlikeAt t slot d ↔
      (d.index.moves old new = true → d.index.Trails s.source s.shape h old)) ∧
    ((d.index.moves old new = true → d.index.Trails s.source s.shape h old) →
      d.descriptor.kind ≠ .hash → d.descriptor.kind.isHeap = false →
      d'.index.handles = d.index.handles) := by
  obtain ⟨hdesc, hindex⟩ := hrestored
  cases hmoves : d.index.moves old new with
  | false =>
    rw [hmoves, if_neg Bool.false_ne_true] at hindex
    have hsame : d' = d := by
      cases d
      cases d'
      simp_all
    refine ⟨iff_of_true (alikeAt_of_eq hslab hshape hd hd' hsame) fun hfalse => ?_,
      fun _ _ _ => by rw [hindex]⟩
    cases hfalse
  | true =>
    rw [hmoves, if_pos rfl] at hindex
    obtain ⟨lifted, undone, hlifted, hundone, hback⟩ := hindex
    have hm := List.mem_of_getElem? hd
    have hm' := List.mem_of_getElem? hd'
    have hstands := hs.stands d hm
    have hsound := hs.sound d hm
    have hsource : t.source = s.source := by rw [source, hslab]; rfl
    have hsound' : d'.index.Sound s.source := hsource ▸ ht.sound d' hm'
    have hblank : d'.index.blank = d.index.blank := by
      have hbuilt := (ht.stands d' hm').built
      rw [hdesc, hshape, hstands.built, Except.ok.injEq] at hbuilt
      exact hbuilt.symm
    have hshelf := Index.shelf_restored hsound hstands.reads hs.conforms hh hn hlifted hundone hback
    have hkind := hstands.describes.1
    simp only [true_imp_iff]
    cases hheap : d.descriptor.kind.isHeap with
    | false =>
      have hl : d.index.kind ≠ .list := by
        intro hl
        cases hi : d.index <;> rw [hi] at hl hmoves <;> cases hl
        cases hmoves
      have hk : d.index.kind.isHeap = false := hkind ▸ hheap
      have hiff := Index.hits_restored_iff hsound hsound' hstands.reads hs.conforms hh hblank hshelf
        hl hk
      rw [hkind] at hiff
      refine ⟨(alikeAt_iff_hits hs ht hslab hshape hd hd' hheap (by rw [hdesc])).trans hiff,
        fun htrails hc _ => ?_⟩
      exact Index.handles_restored hsound hsound' hstands.reads hs.conforms hh hblank hshelf hl hk
        (hkind ▸ hc) htrails
    | true =>
      refine ⟨iff_of_true (alikeAt_of_heap hs ht hslab hshape hd hd' hheap hblank) ?_,
        fun _ _ hfalse => ?_⟩
      · obtain ⟨g, hg⟩ := Index.exists_heap_of_kind (by rw [hkind, hheap])
        rw [hg]
        trivial
      · cases hfalse

end Slots

theorem handles_eq (hd : s.indices[0]? = some d) : s.handles = d.index.handles := by
  rw [handles]
  cases hi : s.indices with
  | nil =>
    rw [hi] at hd
    cases hd
  | cons primary rest =>
    rw [hi] at hd
    obtain rfl := Option.some.inj hd
    rfl

theorem Alike.refl : s.Alike s where
  entries _ := rfl
  lookups _ _ _ _ _ _ := ⟨rfl, fun _ => rfl⟩
  walk _ _ _ := rfl

/-- A refused update of a store that some run leads to leaves all entries, and all answers of lists,
address grids and heaps. It leaves all other answers exactly if it was refused for its shape, or if
the handle trailed in every index in which the update would have moved it. -/
theorem rejected_update_alike_iff (hr : s.Reachable) {ρ : Type}
    {mutate : Entry → Checked (Entry × ρ)} (hm : Total (s.entry? h = some ·) mutate) {refusal : Error}
    (hu : s.update h mutate = .ok (.error refusal, t)) :
    ∃ old new answer, s.entry? h = some old ∧ mutate old = .ok (new, answer) ∧
      (∀ k, t.entry? k = s.entry? k) ∧
      (∀ slot d, s.indices[slot]? = some d → d.descriptor.kind ≠ .hash →
        d.descriptor.kind ≠ .tree → s.AlikeAt t slot d) ∧
      (s.Alike t ↔ new.shape ≠ s.shape ∨ ∀ d ∈ s.indices, d.index.isAffected old new = .ok true →
        d.index.Trails s.source s.shape h old) := by
  have hs := hr.invariant
  obtain ⟨result, t', hu', hkeeps, _, hupdated⟩ := update_spec hs hm
  obtain ⟨rfl, rfl⟩ : .error refusal = result ∧ t = t' := by
    simpa using hu.symm.trans hu'
  obtain ⟨old, new, answer, hh, hnew, ⟨hne, rfl⟩ | ⟨hn, hslab, hall⟩⟩ := hupdated
  · exact ⟨old, new, answer, hh, hnew, fun _ => rfl, fun slot d hd _ _ => Alike.refl.lookups slot d hd,
      iff_of_true .refl (.inl hne)⟩
  have hentries : ∀ k, t.entry? k = s.entry? k := fun k => by simp only [Store.entry?, hslab]
  have hslot {slot : Nat} {d : Declared} (hd : s.indices[slot]? = some d) : ∃ d',
      t.indices[slot]? = some d' ∧ (s.AlikeAt t slot d ↔
        (d.index.moves old new = true → d.index.Trails s.source s.shape h old)) ∧
      ((d.index.moves old new = true → d.index.Trails s.source s.shape h old) →
        d.descriptor.kind ≠ .hash → d.descriptor.kind.isHeap = false →
        d'.index.handles = d.index.handles) := by
    obtain ⟨d', hd', _, hrestored⟩ := Checked.exists_getElem?_right hall hd
    exact ⟨d', hd', restored_alike_iff hs hkeeps.invariant hslab hkeeps.shape hd hd' hh hn hrestored⟩
  have haffected {d : Declared} (hd : d ∈ s.indices) :
      d.index.isAffected old new = .ok true ↔ d.index.moves old new = true := by
    rw [Index.isAffected_eq (hs.stands d hd).reads (hs.conforms hh) hn, Except.ok.injEq]
  refine ⟨old, new, answer, hh, hnew, hentries, fun slot d hd hc ht => ?_, fun halike => ?_, ?_⟩
  · obtain ⟨_, _, hiff, _⟩ := hslot hd
    refine hiff.2 fun _ => ?_
    have hkind := (hs.stands d (List.mem_of_getElem? hd)).describes.1
    cases hi : d.index with
    | hash c => exact absurd (by rw [← hkind, hi]; rfl) hc
    | tree r => exact absurd (by rw [← hkind, hi]; rfl) ht
    | list | array | heap => trivial
  · refine .inr fun d hd hmoves => ?_
    obtain ⟨slot, hd'⟩ := List.mem_iff_getElem?.1 hd
    obtain ⟨_, _, hiff, _⟩ := hslot hd'
    exact hiff.1 (halike.lookups slot d hd') ((haffected hd).1 hmoves)
  · rintro (hne | htrails)
    · exact absurd hn.shape_eq hne
    have htrails {d : Declared} (hd : d ∈ s.indices) (hmoves : d.index.moves old new = true) :
        d.index.Trails s.source s.shape h old := htrails d hd ((haffected hd).2 hmoves)
    refine ⟨hentries, fun slot d hd => ?_, fun d hd hkind => ?_⟩
    · obtain ⟨_, _, hiff, _⟩ := hslot hd
      exact hiff.2 (htrails (List.mem_of_getElem? hd))
    · rw [List.head?_eq_getElem?] at hd
      obtain ⟨d', hd', _, hhandles⟩ := hslot hd
      have hsame := hhandles (htrails (List.mem_of_getElem? hd))
        (by rintro hc; simp [hc] at hkind) (by
          obtain hk | hk | hk := hkind <;> rw [hk] <;> rfl)
      rw [toList, toList, handles_eq hd, handles_eq hd', hsame, resolve, resolve]
      simp only [hentries]

def twinLayout : List Descriptor := [.ofForm (.hash [1] false), .ofForm (.hash [2] true)]

def twinFill : List Operation := [.insert (samplePair 1 10), .insert (samplePair 1 20)]

def twinMove : Entry → Checked (Entry × List (Option Error)) :=
  Edit.applyAll [.set 1 (.int 2), .set 2 (.int 10)]

theorem reachable_twins (hs : create ⟨[.int, .int]⟩ twinLayout = .ok s)
    (ht : run twinFill s = .ok t) : t.Reachable := by
  have hfill : twinFill = [samplePair 1 10, samplePair 1 20].map .insert := rfl
  exact .filled hs (by decide) (by decide) (hfill ▸ ht)

/-- The first of two twins is sent behind the other by an update that is refused. -/
theorem rejected_update_reorders : ∃ s t refusal, Reachable s ∧
    s.update ⟨0, 0⟩ (fun _ => .ok (samplePair 2 20, ())) = .ok (.error refusal, t) ∧
    s.getHandle 0 (samplePair 1 0) = .ok (some ⟨0, 0⟩) ∧
    t.getHandle 0 (samplePair 1 0) = .ok (some ⟨1, 0⟩) ∧ ¬ s.Alike t := by
  obtain ⟨fresh, hfresh⟩ : ∃ fresh, create ⟨[.int, .int]⟩ twinLayout = .ok fresh := ⟨_, rfl⟩
  obtain ⟨s, hs⟩ : ∃ s, run twinFill fresh = .ok s := by
    obtain rfl := Except.ok.inj hfresh
    exact ⟨_, rfl⟩
  have hr := reachable_twins hfresh hs
  obtain rfl := Except.ok.inj hfresh
  obtain ⟨t, refusal, hu⟩ : ∃ t refusal,
      s.update ⟨0, 0⟩ (fun _ => .ok (samplePair 2 20, ())) = .ok (.error refusal, t) := by
    obtain rfl := Except.ok.inj hs
    exact ⟨_, _, rfl⟩
  have hanswers : (∃ d, s.indices[0]? = some d ∧
        d.index.projection.isPartial (samplePair 1 0) = .ok false) ∧
      Entry.Conforms (samplePair 1 0) s.shape ∧
      s.getHandle 0 (samplePair 1 0) = .ok (some ⟨0, 0⟩) ∧
      t.getHandle 0 (samplePair 1 0) = .ok (some ⟨1, 0⟩) := by
    obtain rfl := Except.ok.inj hs
    obtain ⟨-, rfl⟩ := Prod.ext_iff.1 (Except.ok.inj hu)
    exact ⟨⟨_, rfl, rfl⟩, ⟨rfl, rfl⟩, by decide, by decide⟩
  obtain ⟨⟨d, hd, hfull⟩, hp, hbefore, hafter⟩ := hanswers
  refine ⟨s, t, refusal, hr, hu, hbefore, hafter, fun halike => ?_⟩
  obtain ⟨hsame, _⟩ := halike.lookups 0 d hd _ hp fun _ => hfull
  rw [hbefore, hafter] at hsame
  cases hsame

/-- The second of two twins is sent behind the other again by an update that is refused. -/
theorem rejected_update_alike_of_last : ∃ s t, Reachable s ∧
    Total (s.entry? ⟨1, 0⟩ = some ·) twinMove ∧
    s.update ⟨1, 0⟩ twinMove = .ok (.error (.duplicateKey 1 [.int 10]), t) ∧
    ∃ old new answer, s.entry? ⟨1, 0⟩ = some old ∧ twinMove old = .ok (new, answer) ∧
      (∀ k, t.entry? k = s.entry? k) ∧
      (∀ slot d, s.indices[slot]? = some d → d.descriptor.kind ≠ .hash →
        d.descriptor.kind ≠ .tree → s.AlikeAt t slot d) ∧
      (s.Alike t ↔ new.shape ≠ s.shape ∨ ∀ d ∈ s.indices, d.index.isAffected old new = .ok true →
        d.index.Trails s.source s.shape ⟨1, 0⟩ old) := by
  obtain ⟨fresh, hfresh⟩ : ∃ fresh, create ⟨[.int, .int]⟩ twinLayout = .ok fresh := ⟨_, rfl⟩
  obtain ⟨s, hs⟩ : ∃ s, run twinFill fresh = .ok s := by
    obtain rfl := Except.ok.inj hfresh
    exact ⟨_, rfl⟩
  have hr := reachable_twins hfresh hs
  have hm : Total (s.entry? ⟨1, 0⟩ = some ·) twinMove := by
    intro e he
    obtain rfl := Except.ok.inj hfresh
    obtain rfl := Except.ok.inj hs
    obtain rfl := Option.some.inj he
    exact ⟨_, _, rfl, rfl⟩
  obtain ⟨t, hu⟩ : ∃ t,
      s.update ⟨1, 0⟩ twinMove = .ok (.error (.duplicateKey 1 [.int 10]), t) := by
    obtain rfl := Except.ok.inj hfresh
    obtain rfl := Except.ok.inj hs
    exact ⟨_, rfl⟩
  exact ⟨s, t, hr, hm, hu, rejected_update_alike_iff hr hm hu⟩

end IndexedStore.Store
