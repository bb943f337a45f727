import IndexedStore.Proofs.Acceptance
import IndexedStore.Proofs.Rollbacks
import IndexedStore.Proofs.SharedContents

/-!
# Late indices

An index that is added late is filled from the primary index, in its order. An index that was there
from the start got the same entries one by one, when they came, and lost and moved some meanwhile.
The two visit the same handles for every probe, and a heap answers with the same one, whatever has
happened to the older index. The late index is refused exactly if the entries do not fit beside each
other in it.
-/
namespace IndexedStore

namespace Index

variable {i j : Index} {source : Source} {shape : Shape} {d : Descriptor} {h : Handle}
  {e probe : Entry}

/-- An index that was there from the start, with the source it has gone along with: it was created
without handles, each entry that came was placed in it and each that went was removed from it, and a
version with the same place replaced another one without notice. An entry that changed its place was
removed and placed again. -/
inductive Accompanies (shape : Shape) (d : Descriptor) : Source → Index → Prop
  | created {i : Index} (hi : Index.ofDescriptor d shape = .ok i) :
      Accompanies shape d (fun _ => none) i
  | placed {source : Source} {i j : Index} {h : Handle} {e : Entry}
      (hi : Accompanies shape d source i) (hh : source h = none) (he : e.Conforms shape)
      (hadd : i.add (Function.update source h (some e)) h e = .ok (.ok j)) :
      Accompanies shape d (Function.update source h (some e)) j
  | removed {source : Source} {i j : Index} {h : Handle} {e : Entry}
      (hi : Accompanies shape d source i) (hh : source h = some e)
      (hremove : i.remove h e = .ok j) : Accompanies shape d (Function.update source h none) j
  | replaced {source : Source} {i : Index} {h : Handle} {old new : Entry}
      (hi : Accompanies shape d source i) (hh : source h = some old) (hn : new.Conforms shape)
      (hstays : i.isAffected old new = .ok false) :
      Accompanies shape d (Function.update source h (some new)) i
  | cleared {source : Source} {i : Index} (hi : Accompanies shape d source i) :
      Accompanies shape d (fun _ => none) i.clear

theorem Accompanies.sound (hj : Accompanies shape d source j)
    (hbuilt : Index.ofDescriptor d shape = .ok i.blank) (hr : i.Reads shape) :
    j.Sound source ∧ j.blank = i.blank ∧ source.Conforms shape := by
  induction hj with
  | created hi =>
    obtain rfl := Except.ok.inj (hi.symm.trans hbuilt)
    have hblank : i.blank.blank = i.blank := by cases i <;> rfl
    exact ⟨Declared.sound_of_blank hblank fun _ => rfl, hblank, fun _ => by simp⟩
  | @placed source _ _ _ e _ hh he hadd ih =>
    obtain ⟨hsound, hb, hconforms⟩ := ih
    obtain ⟨result, hadd', hresult⟩ := hsound.add (hr.congr hb) hconforms hh he
      (hsound.eqOn_handles hh fun k hk => Function.update_of_ne hk (some e) source)
    obtain rfl := Except.ok.inj (hadd'.symm.trans hadd)
    obtain ⟨_, hsound', hb'⟩ := hresult
    exact ⟨hsound', hb'.trans hb, Store.conforms_update hconforms he⟩
  | removed _ hh hremove ih =>
    obtain ⟨hsound, hb, hconforms⟩ := ih
    obtain ⟨j', hremove', hsound', hb'⟩ := hsound.remove (hr.congr hb) (hconforms hh) hh
    obtain rfl := Except.ok.inj (hremove'.symm.trans hremove)
    exact ⟨hsound', hb'.trans hb, Store.conforms_erase hconforms⟩
  | replaced _ hh hn hstays ih =>
    obtain ⟨hsound, hb, hconforms⟩ := ih
    rw [isAffected_eq (hr.congr hb) (hconforms hh) hn] at hstays
    exact ⟨hsound.change (hr.congr hb) hh hn (Except.ok.inj hstays), hb,
      Store.conforms_update hconforms hn⟩
  | cleared _ ih =>
    obtain ⟨hsound, hb, _⟩ := ih
    exact ⟨sound_of_empty clear_filed handles_clear fun _ => rfl, clear_blank.trans hb,
      fun _ => by simp⟩

section Twins

variable (hi : i.Sound source) (hj : j.Sound source) (hb : j.blank = i.blank)
  (hr : i.Reads shape) (hs : source.Conforms shape) (hp : probe.Conforms shape)
include hi hj hb hr hs hp

/-- Sound indices of one description visit the same handles. -/
theorem hits_perm : (j.hits source probe).Perm (i.hits source probe) :=
  (List.perm_ext_iff_of_nodup (hj.nodup_hits probe) (hi.nodup_hits probe)).2 fun _ =>
    mem_hits_congr hi hj hb hr hs hs hp rfl

omit hs in
theorem get_heap_eq (hk : i.kind.isHeap = true) : j.get source probe = i.get source probe := by
  cases i with
  | heap a =>
    have hkind : j.kind = (heap a).kind := by rw [← kind_blank, hb, kind_blank]
    obtain ⟨b, rfl⟩ := exists_heap_of_kind (hkind ▸ hk)
    exact get_heap_congr hi hj hr hb hp
  | list | hash | tree | array => cases hk

end Twins

end Index

namespace Store

variable {s t u : Store} {d : Descriptor} {slot k : Nat} {probe : Entry}

/-- Whether the entries of a store fit into an index beside each other: they lie on its axes, and
should it be unique, no two of them have one key. -/
structure Suits (s : Store) (d : Descriptor) : Prop where
  inside : ∀ h e, s.entry? h = some e → d.Inside e
  apart : d.isUnique = true → ∀ h k a b, h ≠ k → s.entry? h = some a → s.entry? k = some b →
    ¬ a.Level (d.keyFields s.shape) b

/-- A store took an index at its next slot, which answers as one that was there from the start; all
else is as before. -/
structure Joins (s : Store) (d : Descriptor) (slot : Nat) (t : Store) : Prop where
  next : slot = s.indices.length
  shape : t.shape = s.shape
  slab : t.slab = s.slab
  indices : ∃ index, t.indices = s.indices ++ [⟨d, index⟩]
  /-- As an index that went along with the entries, whatever has happened to it. -/
  accompanied : ∀ j, Index.Accompanies s.shape d s.source j → ∀ probe : Entry,
    probe.Conforms s.shape → ∃ found others, t.slice slot probe = .ok found ∧
      j.slice s.source probe = .ok others ∧ (found.map Prod.fst).Perm others ∧
      (d.kind.isHeap = true → t.getHandle slot probe = j.get s.source probe)
  /-- As an index of any store with the same entries behind the same handles. -/
  mirrored : ∀ (u : Store) (k : Nat) (other : Descriptor), u.Reachable → u.shape = s.shape → u.source = s.source →
    u.descriptors[k]? = some other → other.form = d.form → ∀ probe : Entry,
    probe.Conforms s.shape → ∃ found others, t.slice slot probe = .ok found ∧
      u.slice k probe = .ok others ∧ found.Perm others ∧
      (d.kind.isHeap = true → t.getHandle slot probe = u.getHandle k probe)

theorem suits_iff : s.Suits d ↔ ∀ h e, s.source h = some e →
    d.Permits s.shape (Function.update s.source h none) e := by
  constructor
  · rintro ⟨hinside, hapart⟩ h e he
    refine ⟨hinside h e he, fun hu k other hk => ?_⟩
    have hkh : k ≠ h := by
      rintro rfl
      simp at hk
    rw [Function.update_of_ne hkh] at hk
    exact hapart hu h k e other hkh.symm he hk
  · intro hpermits
    refine ⟨fun h e he => (hpermits h e he).inside, fun hu h k a b hhk ha hb => ?_⟩
    refine (hpermits h a ha).unrivalled hu k b ?_
    rw [Function.update_of_ne hhk.symm]
    exact hb

theorem ofDescriptor_congr {other : Descriptor} {shape : Shape} (hform : other.form = d.form) :
    Index.ofDescriptor other shape = Index.ofDescriptor d shape := by
  rw [Index.ofDescriptor, Index.ofDescriptor, Descriptor.fields, Descriptor.kind, Descriptor.fields,
    Descriptor.kind, hform]

/-- What the index at a slot visits and answers, told by any sound index of its description. -/
theorem slice_perm (ht : t.Invariant) {joined : Declared} (hd : t.indices[slot]? = some joined)
    {j : Index} (hj : j.Sound t.source) (hb : j.blank = joined.index.blank)
    (hp : probe.Conforms t.shape) :
    t.slice slot probe = .ok (t.resolve (joined.index.hits t.source probe)) ∧
    j.slice t.source probe = .ok (j.hits t.source probe) ∧
    (joined.index.hits t.source probe).Perm (j.hits t.source probe) ∧
    (joined.index.kind.isHeap = true → t.getHandle slot probe = j.get t.source probe) := by
  have hmem := List.mem_of_getElem? hd
  have hi := ht.sound joined hmem
  have hr := (ht.stands joined hmem).reads
  refine ⟨slice_eq ht hp hd, hj.filed.slice_eq (hr.congr hb) ht.conforms hp,
    (Index.hits_perm hi hj hb hr ht.conforms hp).symm, fun hk => ?_⟩
  rw [getHandle_eq hp hd, Index.get_heap_eq hi hj hb hr hp hk]

section Joined

variable {joined : Declared} (ht : t.Invariant) (hshape : t.shape = s.shape)
  (hslab : t.slab = s.slab) (hindices : t.indices = s.indices ++ [joined])
  (hdesc : joined.descriptor = d)
include ht hshape hslab hindices hdesc

theorem suits_of_joined : s.Suits d := by
  have hmem : joined ∈ t.indices := by simp [hindices]
  have hsource : t.source = s.source := by rw [source, hslab]; rfl
  refine suits_iff.2 fun h e he => ?_
  rw [← hdesc, ← hshape]
  refine ((ht.stands joined hmem).admits_iff (Function.update_self _ _ _)).1 ?_
  refine ((ht.sound joined hmem).admitted h e (hsource ▸ he)).congr rfl fun k hk => ?_
  rw [Function.update_of_ne hk, hsource]

theorem joins_of_joined : s.Joins d s.indices.length t := by
  have hd : t.indices[s.indices.length]? = some joined := by simp [hindices]
  have hmem := List.mem_of_getElem? hd
  have hstands := ht.stands joined hmem
  have hsource : t.source = s.source := by rw [source, hslab]; rfl
  have hkind : joined.index.kind = d.kind := hdesc ▸ hstands.describes.1
  have hlive : ∀ probe, ∀ h ∈ joined.index.hits t.source probe, (t.source h).isSome := fun probe h hh =>
    ((ht.sound joined hmem).complete h).1
      (Index.mem_handles_of_mem_hits (ht.sound joined hmem).filed hh)
  refine ⟨rfl, hshape, hslab, ⟨joined.index, by rw [hindices, ← hdesc]⟩, fun j hj probe hp => ?_,
    fun u k other hu hushape husource hk hform probe hp => ?_⟩
  · rw [← hdesc, ← hshape] at hj
    obtain ⟨hsound, hb, _⟩ := hj.sound hstands.built hstands.reads
    rw [← hsource] at hsound ⊢
    obtain ⟨hslice, hothers, hperm, hget⟩ := slice_perm ht hd hsound hb (hshape ▸ hp)
    refine ⟨_, _, hslice, hothers, ?_, hkind ▸ hget⟩
    rw [(resolve_spec (hlive probe)).1]
    exact hperm
  · have hu := hu.invariant
    have hsame : u.source = t.source := husource.trans hsource.symm
    obtain ⟨old, hold, rfl⟩ : ∃ old, u.indices[k]? = some old ∧ old.descriptor = other := by
      simpa [descriptors] using hk
    have hmem' := List.mem_of_getElem? hold
    have hb : old.index.blank = joined.index.blank := by
      have hbuilt := (hu.stands old hmem').built
      rw [ofDescriptor_congr hform, hushape, ← hshape, ← hdesc, hstands.built] at hbuilt
      exact (Except.ok.inj hbuilt).symm
    obtain ⟨hslice, _, hperm, hget⟩ :=
      slice_perm ht hd (hsame ▸ hu.sound old hmem') hb (hshape ▸ hp)
    have hp' : probe.Conforms u.shape := hushape ▸ hp
    refine ⟨_, _, hslice, slice_eq hu hp' hold, ?_, fun hk => ?_⟩
    · have hresolve : u.resolve = t.resolve := by
        funext hs
        change hs.filterMap (fun h => (u.source h).map (h, ·)) = _
        rw [hsame]
        rfl
      rw [hresolve, hsame]
      exact hperm.filterMap _
    · rw [hget (hkind.symm ▸ hk), getHandle_eq hp' hold, hsame]

end Joined

/-- In every store that a run leads to, a further index that passes its checks is taken exactly if it
suits the entries. Then it answers as one that was there from the start, and all else is as before.
Otherwise nothing changes, and the error has the next slot and the key of an entry. -/
theorem addIndex_late (hr : s.Reachable)
    (hv : d.validate s.shape s.indices.length s.descriptors = .ok ()) :
    (∃ result, s.addIndex d = .ok result) ∧
    ((∃ slot t, s.addIndex d = .ok (.ok (slot, t))) ↔ s.Suits d) ∧
    (∀ slot t, s.addIndex d = .ok (.ok (slot, t)) → s.Joins d slot t) ∧
    ∀ err, s.addIndex d = .ok (.error err) → (Operation.addIndex d).apply s = .ok s ∧
      ∃ h e, s.entry? h = some e ∧ d.Reports s.shape s.indices.length e err := by
  have hs := hr.invariant
  obtain ⟨result, hadd, hresult⟩ := addIndex_spec hs d
  cases result with
  | error err =>
    obtain hnext | ⟨h, e, he, hrefused, hreports⟩ := hresult
    · obtain ⟨index, hindex⟩ := Descriptor.exists_ofDescriptor hv
      rw [nextIndex, hv] at hnext
      cases hindex.symm.trans hnext
    · have hnot : ¬ s.Suits d := fun hsuits => hrefused (suits_iff.1 hsuits h e he)
      refine ⟨⟨_, hadd⟩, iff_of_false ?_ hnot, fun slot t hok => ?_, fun err' herr => ?_⟩
      · rintro ⟨slot, t, hok⟩
        cases hadd.symm.trans hok
      · cases hadd.symm.trans hok
      · obtain rfl : err = err' := by simpa using hadd.symm.trans herr
        exact ⟨by rw [Operation.apply, hadd]; rfl, h, e, he, hreports⟩
  | ok grown =>
    obtain ⟨slot, t⟩ := grown
    obtain ⟨rfl, ht, hshape, hslab, hdescriptors, joined, hindices⟩ := hresult
    have hdesc : joined.descriptor = d := by
      simpa [descriptors, hindices] using hdescriptors
    refine ⟨⟨_, hadd⟩, iff_of_true ⟨_, t, hadd⟩ (suits_of_joined ht hshape hslab hindices hdesc),
      fun slot t' hok => ?_, fun err herr => ?_⟩
    · obtain ⟨rfl, rfl⟩ : s.indices.length = slot ∧ t = t' := by simpa using hadd.symm.trans hok
      exact joins_of_joined ht hshape hslab hindices hdesc
    · cases hadd.symm.trans herr

/-- A tree that tells second positions apart is taken late, a grid that leaves out the second pair is
not. -/
theorem addIndex_late_of_grid : ∃ s t, Reachable s ∧
    (Descriptor.ofForm (.tree [2] true)).validate s.shape s.indices.length s.descriptors = .ok () ∧
    (Descriptor.ofForm (.array [⟨1, 0, 2⟩])).validate s.shape s.indices.length s.descriptors =
      .ok () ∧
    s.addIndex (.ofForm (.tree [2] true)) = .ok (.ok (3, t)) ∧
    s.Joins (.ofForm (.tree [2] true)) 3 t ∧
    s.addIndex (.ofForm (.array [⟨1, 0, 2⟩])) = .ok (.error (.keyOutOfBounds 3 [.int 2])) ∧
    ¬ s.Suits (.ofForm (.array [⟨1, 0, 2⟩])) := by
  obtain ⟨s, hs⟩ : ∃ s, create ⟨[.int, .int]⟩ gridLayout = .ok s := ⟨_, rfl⟩
  obtain ⟨t, ht⟩ : ∃ t, run (gridPairs.map .insert) s = .ok t := by
    obtain rfl := Except.ok.inj hs
    exact ⟨_, rfl⟩
  have hr : Reachable t := .filled hs (by decide) (by decide) ht
  have hfacts : (Descriptor.ofForm (.tree [2] true)).validate t.shape t.indices.length
        t.descriptors = .ok () ∧
      (Descriptor.ofForm (.array [⟨1, 0, 2⟩])).validate t.shape t.indices.length t.descriptors =
        .ok () ∧
      (∃ u, t.addIndex (.ofForm (.tree [2] true)) = .ok (.ok (3, u))) ∧
      t.addIndex (.ofForm (.array [⟨1, 0, 2⟩])) = .ok (.error (.keyOutOfBounds 3 [.int 2])) := by
    obtain rfl := Except.ok.inj hs
    obtain rfl := Except.ok.inj ht
    exact ⟨by decide +kernel, by decide +kernel, ⟨_, rfl⟩, by decide +kernel⟩
  obtain ⟨hv, hv', ⟨u, hadd⟩, hrefused⟩ := hfacts
  obtain ⟨_, _, hjoins, _⟩ := addIndex_late hr hv
  obtain ⟨_, hsuits, _, _⟩ := addIndex_late hr hv'
  refine ⟨t, u, hr, hv, hv', hadd, hjoins 3 u hadd, hrefused, fun hfits => ?_⟩
  obtain ⟨slot, v, hok⟩ := hsuits.2 hfits
  cases hrefused.symm.trans hok

end Store
end IndexedStore
