import IndexedStore.Proofs.Constraints
import IndexedStore.Proofs.Invariants
import IndexedStore.Store.Grow

/-!
# Creation and growth of a store

A fresh store keeps the invariant, and so does a store that took one more index: filling it adds the
entries one by one, and the index is sound for those added so far.
-/
namespace IndexedStore

def Source.among (source : Source) (hs : List Handle) : Source :=
  fun h => if h ∈ hs then source h else none

namespace Source

variable {source : Source} {shape : Shape} {h : Handle} {hs : List Handle}

theorem among_nil : source.among [] = fun _ => none := by
  funext k
  simp [among]

theorem among_cons : source.among (h :: hs) = Function.update (source.among hs) h (source h) := by
  funext k
  by_cases hk : k = h
  · subst hk
    simp [among]
  · rw [Function.update_of_ne hk]
    simp [among, hk]

theorem among_of_complete (hc : ∀ h, (source h).isSome → h ∈ hs) : source.among hs = source := by
  funext k
  rw [among]
  split
  · rfl
  next hk =>
    cases hx : source k with
    | none => rfl
    | some e => exact absurd (hc k (by simp [hx])) hk

theorem among_congr {other : List Handle} (hm : ∀ h, h ∈ hs ↔ h ∈ other) :
    source.among hs = source.among other := by
  funext k
  simp only [among, hm]

theorem eq_among_of_isSome (hsome : (source.among hs h).isSome) : source h = source.among hs h := by
  rw [among] at hsome ⊢
  split at hsome
  · rw [if_pos ‹_›]
  · cases hsome

theorem Conforms.among (hsource : source.Conforms shape) (hs : List Handle) :
    (source.among hs).Conforms shape := by
  intro k e he
  rw [Source.among] at he
  split at he
  · exact hsource he
  · cases he

end Source

namespace Store

variable {s t : Store} {shape : Shape} {source : Source} {d : Declared}

/-! ## Creation -/

theorem declareAll_spec {earlier descriptors : List Descriptor} {declared : List Declared}
    (h : declareAll shape earlier descriptors = .ok declared) :
    declared.map Declared.descriptor = descriptors ∧
      ∀ d ∈ declared, d.Stands shape ∧ d.index.blank = d.index := by
  induction descriptors generalizing earlier declared with
  | nil =>
    obtain rfl := Except.ok.inj h
    exact ⟨rfl, by simp⟩
  | cons descriptor rest ih =>
    rw [declareAll] at h
    obtain ⟨⟨⟩, hv, h⟩ := Checked.bind_eq_ok.1 h
    obtain ⟨index, hb, h⟩ := Checked.bind_eq_ok.1 h
    obtain ⟨others, hrest, h⟩ := Checked.bind_eq_ok.1 h
    obtain rfl := Except.ok.inj h
    obtain ⟨hdesc, hothers⟩ := ih hrest
    refine ⟨by simp [hdesc], fun d hd => ?_⟩
    obtain rfl | hd := List.mem_cons.1 hd
    · exact Declared.stands_of_validate hv hb
    · exact hothers d hd

theorem create_spec {descriptors : List Descriptor} (h : create shape descriptors = .ok s) :
    s.Invariant ∧ s.shape = shape ∧ s.descriptors = descriptors ∧ ∀ h, s.source h = none := by
  rw [create] at h
  split at h
  · cases h
  next hne =>
    obtain ⟨declared, hall, h⟩ := Checked.bind_eq_ok.1 h
    obtain rfl := Except.ok.inj h
    obtain ⟨hdesc, hstands⟩ := declareAll_spec hall
    have hempty : ∀ h, (Slab.empty : Slab Entry).get? h = none := fun h => Slab.empty_get?
    refine ⟨⟨Slab.empty_sound, ?_, fun d hd => (hstands d hd).1, fun d hd => ?_, ?_⟩, rfl, hdesc,
      hempty⟩
    · intro h e he
      rw [source, hempty] at he
      cases he
    · exact Declared.sound_of_blank (hstands d hd).2 hempty
    · rintro hnil
      have hnil : declared = [] := hnil
      rw [hnil] at hdesc
      exact hne (by simp [← hdesc])

/-! ## Further indices -/

/-- Filling an index makes it sound for the handles it had and those it was given, or reports one
whose entry it does not permit beside all others. -/
theorem fill_spec (slot : Nat) {rest : List (Handle × Entry)} {done : List Handle}
    (hsource : source.Conforms shape) (hd : d.Stands shape)
    (hi : d.index.Sound (source.among done)) (hrest : ∀ item ∈ rest, source item.1 = some item.2)
    (hnodup : (rest.map Prod.fst ++ done).Nodup) :
    ∃ result, fill source slot rest d = .ok result ∧ match result with
      | .ok filled => filled.descriptor = d.descriptor ∧ filled.Stands shape ∧
          filled.index.Sound (source.among (rest.map Prod.fst ++ done))
      | .error err => ∃ item ∈ rest,
          ¬ d.descriptor.Permits shape (Function.update source item.1 none) item.2 ∧
          d.descriptor.Reports shape slot item.2 err := by
  -- The induction moves the entries one by one from those to come to those done.
  induction rest generalizing d done with
  | nil => exact ⟨.ok d, rfl, rfl, hd, hi⟩
  | cons item rest ih =>
    obtain ⟨h, e⟩ := item
    have hh : source h = some e := hrest (h, e) List.mem_cons_self
    simp only [List.map_cons, List.cons_append, List.nodup_cons, List.mem_append, not_or] at hnodup
    obtain ⟨⟨hnew, hnot⟩, hnodup⟩ := hnodup
    have he : e.Conforms shape := hsource hh
    have hfree : source.among done h = none := by simp [Source.among, hnot]
    have hsame : ∀ k ∈ d.index.handles, source k = source.among done k := fun k hk =>
      Source.eq_among_of_isSome ((hi.complete k).1 hk)
    obtain ⟨result, hadd, hresult⟩ :=
      hi.add hd.reads (hsource.among done) hfree he hsame
    cases result with
    | error why =>
      obtain ⟨err, herr⟩ := hd.exists_error he slot why
      refine ⟨.error err, by simp [fill, hadd, herr], (h, e), List.mem_cons_self, ?_,
        hd.reports_of_error he hadd herr⟩
      refine fun hp => hresult ((hd.admits_iff hfree).2 (hp.mono fun k other hk => ?_))
      have hkh : k ≠ h := fun heq => by simp [heq, hfree] at hk
      have hsame : source k = source.among done k := Source.eq_among_of_isSome (by simp [hk])
      rw [Function.update_of_ne hkh, hsame, hk]
    | ok index =>
      obtain ⟨_, hsound, hb⟩ := hresult
      have hcons : (source.among (h :: done)) = Function.update (source.among done) h (some e) := by
        rw [Source.among_cons, hh]
      have hdone : (rest.map Prod.fst ++ h :: done).Nodup := by
        rw [List.nodup_middle, List.nodup_cons, List.mem_append, not_or]
        exact ⟨⟨hnew, hnot⟩, hnodup⟩
      obtain ⟨result, hfill, hfilled⟩ := ih (hd.with_index hb) (hcons ▸ hsound)
        (fun item hitem => hrest item (List.mem_cons_of_mem _ hitem)) hdone
      refine ⟨result, by simpa [fill, hadd] using hfill, ?_⟩
      cases result with
      | error err =>
        obtain ⟨item, hitem, hrefused⟩ := hfilled
        exact ⟨item, List.mem_cons_of_mem _ hitem, hrefused⟩
      | ok filled =>
      obtain ⟨hdesc, hstands, hsound⟩ := hfilled
      refine ⟨hdesc, hstands, ?_⟩
      have hmem (k : Handle) : k ∈ rest.map Prod.fst ++ h :: done ↔
          k ∈ ((h, e) :: rest).map Prod.fst ++ done := by
        simp only [List.mem_append, List.mem_cons, List.map_cons]
        tauto
      exact Source.among_congr hmem ▸ hsound

theorem resolve_spec {hs : List Handle} (hlive : ∀ h ∈ hs, (s.source h).isSome) :
    (s.resolve hs).map Prod.fst = hs ∧ ∀ item ∈ s.resolve hs, s.source item.1 = some item.2 := by
  induction hs with
  | nil => exact ⟨rfl, by simp [resolve]⟩
  | cons h rest ih =>
    obtain ⟨e, he⟩ := Option.isSome_iff_exists.1 (hlive h List.mem_cons_self)
    obtain ⟨hmap, hitems⟩ := ih fun k hk => hlive k (List.mem_cons_of_mem _ hk)
    have hentry : s.entry? h = some e := he
    have hcons : s.resolve (h :: rest) = (h, e) :: s.resolve rest := by
      simp [resolve, hentry]
    refine ⟨by rw [hcons, List.map_cons, hmap], fun item hitem => ?_⟩
    rw [hcons] at hitem
    obtain rfl | hitem := List.mem_cons.1 hitem
    · exact he
    · exact hitems item hitem

section Contents

variable (hs : s.Invariant)
include hs

/-- The primary index holds every handle that reaches an entry, once. -/
theorem Invariant.handles_spec : s.handles.Nodup ∧ ∀ h, h ∈ s.handles ↔ (s.source h).isSome := by
  have hsound := hs.sound
  have hprimary := hs.primary
  rw [handles]
  cases hi : s.indices with
  | nil => exact absurd hi hprimary
  | cons primary rest =>
    have hi := hsound primary (by simp [hi])
    exact ⟨hi.nodup, hi.complete⟩

theorem Invariant.toList_spec : s.toList.map Prod.fst = s.handles ∧
    ∀ item ∈ s.toList, s.source item.1 = some item.2 :=
  resolve_spec fun h hh => (hs.handles_spec.2 h).1 hh

/-- An index that is added is sound for the entries of the store; apart from its own checks, it can
be refused for an entry only that it does not permit beside all others. -/
theorem addIndex_spec (descriptor : Descriptor) :
    ∃ result, s.addIndex descriptor = .ok result ∧ match result with
      | .ok (slot, t) => slot = s.indices.length ∧ t.Invariant ∧ t.shape = s.shape ∧
          t.slab = s.slab ∧ t.descriptors = s.descriptors ++ [descriptor] ∧
          ∃ filled, t.indices = s.indices ++ [filled]
      | .error err => s.nextIndex descriptor = .error err ∨ ∃ h e, s.source h = some e ∧
          ¬ descriptor.Permits s.shape (Function.update s.source h none) e ∧
          descriptor.Reports s.shape s.indices.length e err := by
  rw [addIndex]
  cases hnext : s.nextIndex descriptor with
  | error err => exact ⟨.error err, rfl, .inl rfl⟩
  | ok index =>
    rw [nextIndex] at hnext
    obtain ⟨⟨⟩, hv, hb⟩ := Checked.bind_eq_ok.1 hnext
    obtain ⟨hstands, hblank⟩ := Declared.stands_of_validate hv hb
    obtain ⟨hmap, hitems⟩ := hs.toList_spec
    obtain ⟨hnodup, hcomplete⟩ := hs.handles_spec
    have hempty : index.Sound (s.source.among []) :=
      Declared.sound_of_blank hblank fun h => by rw [Source.among_nil]
    obtain ⟨result, hfill, hfilled⟩ := fill_spec s.indices.length hs.conforms hstands
      hempty hitems (by rw [List.append_nil, hmap]; exact hnodup)
    dsimp only
    rw [hfill, Checked.ok_bind]
    cases result with
    | error err =>
      obtain ⟨item, hitem, hrefused⟩ := hfilled
      exact ⟨.error err, rfl, .inr ⟨item.1, item.2, hitems item hitem, hrefused⟩⟩
    | ok filled =>
      obtain ⟨hdesc, hstands, hsound⟩ := hfilled
      rw [List.append_nil, hmap, Source.among_of_complete fun h hh => (hcomplete h).2 hh] at hsound
      refine ⟨_, rfl, rfl, ⟨hs.slab, hs.conforms, ?_, ?_, by simp⟩, rfl, rfl, ?_, filled, rfl⟩
      · exact List.forall_mem_append.2 ⟨hs.stands, List.forall_mem_singleton.2 hstands⟩
      · exact List.forall_mem_append.2 ⟨hs.sound, List.forall_mem_singleton.2 hsound⟩
      · simp [descriptors, hdesc]

theorem addIndex_of_not_unique (descriptor : Descriptor) (hu : descriptor.isUnique = false)
    (hv : descriptor.validate s.shape s.descriptors.length s.descriptors = .ok ()) :
    ∃ t, s.addIndex descriptor = .ok (.ok (s.indices.length, t)) ∧ t.Invariant ∧
      t.shape = s.shape ∧ t.slab = s.slab ∧ t.descriptors = s.descriptors ++ [descriptor] := by
  obtain ⟨index, hindex⟩ := Descriptor.exists_ofDescriptor hv
  have hlength : s.descriptors.length = s.indices.length := by simp [descriptors]
  have hnext : s.nextIndex descriptor = .ok index := by
    rw [nextIndex, ← hlength, hv]
    exact hindex
  obtain ⟨result, hadd, hresult⟩ := addIndex_spec hs descriptor
  cases result with
  | error err =>
    obtain herr | ⟨_, _, _, hrefused, _⟩ := hresult
    · cases hnext.symm.trans herr
    · exact absurd (Descriptor.permits_of_not_unique hu) hrefused
  | ok grown =>
    obtain ⟨slot, t⟩ := grown
    obtain ⟨rfl, ht, hshape, hslab, hdesc, _⟩ := hresult
    exact ⟨t, hadd, ht, hshape, hslab, hdesc⟩

end Contents

/-! ## Heaps -/

structure HeapFits (shape : Shape) (group : List Nat) (target : Nat) : Prop where
  grouped : group ≠ []
  inside : ∀ p ∈ group, 0 < p ∧ p ≤ shape.arity
  distinct : group.Nodup
  target_inside : 0 < target ∧ target ≤ shape.arity
  apart : target ∉ group

variable {order : Direction} {group : List Nat} {target : Nat}

theorem isHashOn_hash (unique : Bool) :
    (Descriptor.ofForm (.hash group unique)).isHashOn group = true := by
  simp [Descriptor.isHashOn, Descriptor.ofForm, Descriptor.kind, Descriptor.fields]

theorem HeapFits.validate_hash (hfit : HeapFits shape group target) (slot : Nat)
    (earlier : List Descriptor) :
    (Descriptor.ofForm (.hash group false)).validate shape slot earlier = .ok () := by
  refine Descriptor.validate_eq_ok_iff.2 ⟨hfit.inside, hfit.distinct, ?_⟩
  simp [Descriptor.checkForm, Descriptor.ofForm, hfit.grouped]

/-- A heap passes its checks behind a hash index on its group exactly if it fits the shape. -/
theorem validate_heap_iff {slot partition : Nat} {earlier : List Descriptor} {d : Descriptor}
    (hslot : slot ≠ 0) (hd : earlier[partition]? = some d) (hhash : d.isHashOn group = true) :
    ((Descriptor.ofForm (.heap order group target)).withPartition partition).validate shape slot
      earlier = .ok () ↔ HeapFits shape group target := by
  have hpartition : Descriptor.checkPartition group slot earlier (some partition) = .ok () := by
    rw [Descriptor.checkPartition, hd]
    dsimp only
    rw [if_pos hhash]
  rw [Descriptor.validate_eq_ok_iff, Descriptor.ofForm, Descriptor.withPartition,
    Descriptor.checkForm_heap_iff]
  constructor
  · rintro ⟨hin, hnodup, hgroup, htarget, hapart, _⟩
    exact ⟨hgroup, hin, hnodup, htarget, hapart⟩
  · rintro ⟨hgroup, hin, hnodup, htarget, hapart⟩
    exact ⟨hin, hnodup, hgroup, htarget, hapart, hslot, hpartition⟩

theorem checkHeap_iff (hs : s.Invariant) :
    s.checkHeap order group target = .ok () ↔ HeapFits s.shape group target := by
  have hne : s.descriptors.length ≠ 0 := by
    simpa [descriptors] using hs.primary
  rw [checkHeap, heapLayout]
  cases hgroup : s.descriptors.findIdx? (·.isHashOn group) with
  | some slot =>
    obtain ⟨hlt, hhash, _⟩ := List.findIdx?_eq_some_iff_getElem.1 hgroup
    refine validate_heap_iff ?_ (List.getElem?_append_left hlt ▸ List.getElem?_eq_getElem hlt) hhash
    simpa using hne
  | none =>
    refine validate_heap_iff (by simp) ?_ (isHashOn_hash false)
    rw [List.getElem?_append_right (Nat.le_refl _), Nat.sub_self]
    rfl

/-- A heap that fits is added with the hash index it needs; any other is refused before anything is
added. -/
theorem addHeap_spec (hs : s.Invariant) (order : Direction) (group : List Nat) (target : Nat) :
    ∃ result t, s.addHeap order group target = .ok (result, t) ∧ t.Invariant ∧
      t.shape = s.shape ∧ t.slab = s.slab ∧ match result with
        | .ok () => HeapFits s.shape group target ∧
            addIndices (heapLayout s.descriptors order group target) s = .ok (.ok (), t) ∧
            t.descriptors = s.descriptors ++ heapLayout s.descriptors order group target
        | .error _ => ¬ HeapFits s.shape group target ∧ t = s := by
  have hcheck : s.checkHeap order group target = .ok () ↔ HeapFits s.shape group target :=
    checkHeap_iff hs
  rw [addHeap]
  cases hresult : s.checkHeap order group target with
  | error err =>
    rw [hresult] at hcheck
    exact ⟨.error err, s, rfl, hs, rfl, rfl, fun hfit => (by cases hcheck.2 hfit), rfl⟩
  | ok =>
    have hfit := hcheck.1 hresult
    suffices hadded : ∃ t, addIndices (heapLayout s.descriptors order group target) s =
        .ok (.ok (), t) ∧ t.Invariant ∧ t.shape = s.shape ∧ t.slab = s.slab ∧
        t.descriptors = s.descriptors ++ heapLayout s.descriptors order group target by
      obtain ⟨t, hadd, ht, hshape, hslab, hdesc⟩ := hadded
      exact ⟨.ok (), t, hadd, ht, hshape, hslab, hfit, hadd, hdesc⟩
    have hne : s.descriptors.length ≠ 0 := by simpa [descriptors] using hs.primary
    rw [heapLayout]
    cases hgroup : s.descriptors.findIdx? (·.isHashOn group) with
    | some slot =>
      obtain ⟨hlt, hhash, _⟩ := List.findIdx?_eq_some_iff_getElem.1 hgroup
      obtain ⟨t, hadd, ht⟩ := addIndex_of_not_unique hs
        ((Descriptor.ofForm (.heap order group target)).withPartition slot) rfl
        ((validate_heap_iff hne (List.getElem?_eq_getElem hlt) hhash).2 hfit)
      exact ⟨t, by simp [addIndices, hadd], ht⟩
    | none =>
      obtain ⟨t, hadd, ht, hshape, hslab, hdesc⟩ := addIndex_of_not_unique hs
        (.ofForm (.hash group false)) rfl (hfit.validate_hash _ _)
      have hhash : t.descriptors[s.descriptors.length]? = some (.ofForm (.hash group false)) := by
        rw [hdesc, List.getElem?_append_right (Nat.le_refl _), Nat.sub_self]
        rfl
      obtain ⟨u, hadd', hu, hshape', hslab', hdesc'⟩ := addIndex_of_not_unique ht
        ((Descriptor.ofForm (.heap order group target)).withPartition s.descriptors.length) rfl
        ((validate_heap_iff (by simp [hdesc]) hhash (isHashOn_hash false)).2 (hshape ▸ hfit))
      refine ⟨u, by simp [addIndices, hadd, hadd'], hu, hshape'.trans hshape,
        hslab'.trans hslab, ?_⟩
      rw [hdesc', hdesc, List.append_assoc]
      rfl

end Store
end IndexedStore
