import IndexedStore.Proofs.Indices

/-!
# Changes of sound indices

An addition to a sound index answers whether the index admits the entry, and leaves an index that is
sound for the source with that entry. A removal is never refused. An index in which two versions of
an entry have one place is sound for the source with either.
-/
namespace IndexedStore.Index

variable {i j : Index} {source after : Source} {shape : Shape} {h : Handle} {e : Entry}

/-- What an addition has to answer: an index with the handle exactly if the entry is admitted. -/
def Adds (i : Index) (source : Source) (h : Handle) (e : Entry) : Except Rejection Index → Prop
  | .ok j => i.Admits source h e ∧ j.blank = i.blank ∧
      j.Filed (Function.update source h (some e)) ∧ j.handles.Perm (h :: i.handles)
  | .error _ => ¬ i.Admits source h e

/-- An index does not notice an entry behind a handle it does not hold. -/
theorem Filed.update (hf : i.Filed source) (hh : h ∉ i.handles) (e : Entry) :
    i.Filed (Function.update source h (some e)) := by
  refine hf.of_eqOn fun k hk => Function.update_of_ne ?_ _ _
  rintro rfl
  exact hh hk

namespace Sound

variable (hi : i.Sound source)
include hi

theorem not_mem_handles (hh : source h = none) : h ∉ i.handles := fun hm => by
  simp [hi.complete, hh] at hm

theorem eqOn_handles (hh : source h = none) (hs : ∀ k ≠ h, after k = source k) :
    ∀ k ∈ i.handles, after k = source k := fun k hk => hs k fun he =>
  hi.not_mem_handles hh (he ▸ hk)

theorem filed_update (hh : source h = none) (e : Entry) :
    i.Filed (Function.update source h (some e)) := hi.filed.update (hi.not_mem_handles hh) e

end Sound

inductive Added (h : Handle) (e : Entry) : Index → Index → Prop
  | list {l : ScanList} : Added h e (list l) (list (l.add h))
  | hash {c : HashChains} :
    Added h e (hash c) (hash (c.push (c.projection.keyOf e).hash h))
  | tree {r : KeyRows} : Added h e (tree r) (tree (r.push (r.projection.keyOf e) h))
  | array {g : AddressGrid} {address : Nat} :
    g.addressOf (g.projection.keyOf e) = some address → g.holder? address = none →
    Added h e (array g) (array (g.occupy address h))
  | heap {g : GroupHeaps} :
    Added h e (heap g) (heap (g.push (g.projection.keyOf e) ⟨g.targetOf e, h⟩))

theorem Added.filed (hadded : Added h e i j) (hf : i.Filed source) (hr : i.Reads shape)
    (hh : h ∉ i.handles) (he : e.Conforms shape) : j.blank = i.blank ∧
      j.Filed (Function.update source h (some e)) ∧ j.handles.Perm (h :: i.handles) := by
  have hnew : i.Filed (Function.update source h (some e)) := hf.update hh e
  have hself : Function.update source h (some e) h = some e := Function.update_self _ _ _
  cases hadded with
  | list => exact ⟨rfl, ScanList.Filed.add hnew hself (hr.fits he), List.perm_append_singleton _ _⟩
  | hash =>
    exact ⟨rfl, HashChains.Filed.push hnew hself (hr.fits he), HashChains.Filed.handles_push hf⟩
  | tree => exact ⟨rfl, KeyRows.Filed.push hnew hself (hr.fits he), KeyRows.Filed.handles_push hf⟩
  | array haddress hfree =>
    exact ⟨rfl, AddressGrid.Filed.occupy hnew hself (hr.fits he) haddress hfree,
      AddressGrid.Filed.handles_occupy hf hfree⟩
  | heap =>
    obtain ⟨hfiled, hperm⟩ := GroupHeaps.Filed.push hnew hself (hr.heap he) hh
    exact ⟨rfl, hfiled, hperm⟩

theorem Sound.adds (hi : i.Sound source) (hr : i.Reads shape) (hh : source h = none)
    (he : e.Conforms shape) (hadded : Added h e i j) (ha : i.Admits source h e) :
    i.Adds source h e (.ok j) :=
  ⟨ha, hadded.filed hi.filed hr (hi.not_mem_handles hh) he⟩

section Additions

variable (hh : source h = none) (he : e.Conforms shape)
include hh he

theorem adds_list {l : ScanList} (hi : (list l).Sound source) (hr : (list l).Reads shape) :
    (list l).Adds source h e (.ok (list (l.add h))) :=
  hi.adds hr hh he .list (admits_of_not_unique rfl)

theorem adds_hash {c : HashChains} (hi : (hash c).Sound source) (hr : (hash c).Reads shape)
    (hs : ∀ k ∈ c.handles, after k = source k) : ∃ result, c.add after h e = .ok result ∧
      (hash c).Adds source h e (result.map hash) := by
  have hf : c.Filed source := hi.filed
  refine ⟨_, hf.add_eq (hr.fits he) hs, ?_⟩
  cases hrival : c.rival? source h e with
  | none => exact hi.adds hr hh he .hash ⟨trivial, (hf.rival?_eq_none_iff hi.complete).1 hrival⟩
  | some rival =>
    intro ha
    rw [(hf.rival?_eq_none_iff hi.complete).2 ha.unrivalled] at hrival
    cases hrival

theorem adds_tree {r : KeyRows} (hi : (tree r).Sound source) (hr : (tree r).Reads shape) :
    ∃ result, r.add h e = .ok result ∧ (tree r).Adds source h e (result.map tree) := by
  have hf : r.Filed source := hi.filed
  refine ⟨_, KeyRows.add_eq (hr.fits he), ?_⟩
  cases hrival : r.rival? h e with
  | none => exact hi.adds hr hh he .tree ⟨trivial, (hf.rival?_eq_none_iff hi.complete).1 hrival⟩
  | some rival =>
    intro ha
    rw [(hf.rival?_eq_none_iff hi.complete).2 ha.unrivalled] at hrival
    cases hrival

theorem adds_array {g : AddressGrid} (hi : (array g).Sound source) (hr : (array g).Reads shape)
    (hsource : source.Conforms shape) : ∃ result, g.add h e = .ok result ∧
      (array g).Adds source h e (result.map array) := by
  have hf : g.Filed source := hi.filed
  refine ⟨_, AddressGrid.add_eq (hr.fits he), ?_⟩
  cases haddress : g.addressOf (g.projection.keyOf e) with
  | none =>
    rintro ⟨⟨address, hin⟩, _⟩
    cases haddress.symm.trans hin
  | some address =>
    cases hholder : g.holder? address with
    | some holder =>
      have hm : holder ∈ g.handles :=
        AddressGrid.mem_handles_iff.2 ⟨address, hf.holder?_eq_some_iff.1 hholder⟩
      have hne : holder ≠ h := by
        rintro rfl
        exact hi.not_mem_handles hh hm
      dsimp only
      rw [hholder]
      dsimp only
      rw [if_neg hne]
      intro ha
      obtain ⟨other, ho, _⟩ := hf.exists_entry hm
      have hother := ((hf.holder?_iff ho).1 hholder).2
      have hlength : (g.projection.keyOf e).length = g.axes.length := by
        rw [Projection.length_keyOf]
        exact hr.form.symm
      refine ha.unrivalled rfl holder hne other ho (AddressGrid.compare_eq_of_addressOf hlength
        (Projection.types_keyOf he (hsource ho)) haddress hother)
    | none =>
      dsimp only
      rw [hholder]
      refine hi.adds hr hh he (.array haddress hholder)
        ⟨⟨address, haddress⟩, fun _ k hk other ho level => ?_⟩
      have hslot := (hf.holder?_iff ho).2 ⟨(hi.complete k).2 (by simp [ho]),
        (AddressGrid.addressOf_congr level).symm.trans haddress⟩
      rw [hholder] at hslot
      cases hslot

theorem adds_heap {g : GroupHeaps} (hi : (heap g).Sound source) (hr : (heap g).Reads shape) :
    ∃ result, g.add h e = .ok result ∧ (heap g).Adds source h e (.ok (heap result)) :=
  ⟨_, GroupHeaps.add_eq (hr.heap he), hi.adds hr hh he .heap (admits_of_not_unique rfl)⟩

end Additions

/-- An addition to a sound index succeeds exactly if the index admits the entry, whatever the source
answers for handles that the index does not hold. -/
theorem Sound.add (hi : i.Sound source) (hr : i.Reads shape) (hsource : source.Conforms shape)
    (hh : source h = none) (he : e.Conforms shape) (hs : ∀ k ∈ i.handles, after k = source k) :
    ∃ result, i.add after h e = .ok result ∧ match result with
      | .ok j => i.Admits source h e ∧ j.Sound (Function.update source h (some e)) ∧
          j.blank = i.blank
      | .error _ => ¬ i.Admits source h e := by
  obtain ⟨result, hadd, hresult⟩ : ∃ result, i.add after h e = .ok result ∧
      i.Adds source h e result := by
    cases i with
    | list l => exact ⟨_, rfl, adds_list hh he hi hr⟩
    | hash c =>
      obtain ⟨result, hadd, hresult⟩ := adds_hash hh he hi hr hs
      exact ⟨_, by rw [Index.add, hadd]; rfl, hresult⟩
    | tree r =>
      obtain ⟨result, hadd, hresult⟩ := adds_tree hh he hi hr
      exact ⟨_, by rw [Index.add, hadd]; rfl, hresult⟩
    | array g =>
      obtain ⟨result, hadd, hresult⟩ := adds_array hh he hi hr hsource
      exact ⟨_, by rw [Index.add, hadd]; rfl, hresult⟩
    | heap g =>
      obtain ⟨result, hadd, hresult⟩ := adds_heap hh he hi hr
      exact ⟨_, by rw [Index.add, hadd]; rfl, hresult⟩
  refine ⟨result, hadd, ?_⟩
  cases result with
  | ok j =>
    obtain ⟨ha, hb, hf, hp⟩ := hresult
    exact ⟨ha, hi.of_added hh ha hb hf hp, hb⟩
  | error why => exact hresult

theorem Filed.added (hf : i.Filed source) (hr : i.Reads shape) (hh : h ∉ i.handles)
    (he : e.Conforms shape) (hadd : i.add after h e = .ok (.ok j)) : Added h e i j := by
  have hfit := hr.fits he
  cases i with
  | list l =>
    obtain rfl := Except.ok.inj (Except.ok.inj hadd)
    exact .list
  | hash c =>
    obtain ⟨result, hchains, hadd⟩ := Checked.bind_eq_ok.1 hadd
    cases result with
    | error why => cases hadd
    | ok c' =>
      obtain rfl := Except.ok.inj (Except.ok.inj hadd)
      obtain rfl := HashChains.add_ok hfit hchains
      exact .hash
  | tree r =>
    obtain ⟨result, hrows, hadd⟩ := Checked.bind_eq_ok.1 hadd
    cases result with
    | error why => cases hadd
    | ok r' =>
      obtain rfl := Except.ok.inj (Except.ok.inj hadd)
      obtain rfl := KeyRows.add_ok hfit hrows
      exact .tree
  | array g =>
    have hf : g.Filed source := hf
    obtain ⟨result, hslots, hadd⟩ := Checked.bind_eq_ok.1 hadd
    cases result with
    | error why => cases hadd
    | ok g' =>
      obtain rfl := Except.ok.inj (Except.ok.inj hadd)
      obtain ⟨address, haddress, hfree, rfl⟩ := hf.add_ok hfit hh hslots
      exact .array haddress hfree
  | heap g =>
    rw [Index.add, GroupHeaps.add_eq (hr.heap he)] at hadd
    obtain rfl := Except.ok.inj (Except.ok.inj hadd)
    exact .heap

theorem Sound.added (hi : i.Sound source) (hr : i.Reads shape) (hh : source h = none)
    (he : e.Conforms shape) (hadd : i.add after h e = .ok (.ok j)) : Added h e i j :=
  hi.filed.added hr (hi.not_mem_handles hh) he hadd

/-! ## Removals -/

/-- What an index is without a handle that stands under an entry. Which item of a heap moves up in
its place is left open. -/
inductive Removed (h : Handle) (e : Entry) : Index → Index → Prop
  | list {l : ScanList} : h ∈ l.handles → Removed h e (list l) (list (l.pull h))
  | hash {c : HashChains} : h ∈ c.chain (c.projection.keyOf e).hash →
    Removed h e (hash c) (hash (c.pull (c.projection.keyOf e).hash h))
  | tree {r : KeyRows} : h ∈ r.row (r.projection.keyOf e) →
    Removed h e (tree r) (tree (r.pull (r.projection.keyOf e) h))
  | array {g : AddressGrid} {address : Nat} : g.holder? address = some h →
    Removed h e (array g) (array (g.vacate address))
  | heap {g g' : GroupHeaps} : Removed h e (heap g) (heap g')

theorem Filed.remove? (hf : i.Filed source) (hr : i.Reads shape) (he : e.Conforms shape)
    (hh : source h = some e) (hm : h ∈ i.handles) :
    ∃ j, i.remove? h e = .ok (some j) ∧ Removed h e i j ∧ j.blank = i.blank ∧ j.Filed source ∧
      j.handles.Perm (i.handles.erase h) := by
  have hfit := hr.fits he
  cases i with
  | list l =>
    have hf : l.Filed source := hf
    have hremove : l.remove? h = some (l.pull h) := ScanList.remove?_eq.trans (if_pos hm)
    exact ⟨list (l.pull h), by rw [Index.remove?, hremove]; rfl, .list hm, rfl, hf.pull hm,
      .refl _⟩
  | hash c =>
    have hf : c.Filed source := hf
    have hchain := (hf.mem_chain_iff hh).2 ⟨hm, rfl⟩
    have hremove := HashChains.remove?_eq (h := h) hfit
    rw [if_pos hchain] at hremove
    exact ⟨hash (c.pull _ h), by rw [Index.remove?, hremove]; rfl, .hash hchain, rfl,
      hf.pull hchain, hf.handles_pull hchain⟩
  | tree r =>
    have hf : r.Filed source := hf
    have hrow := (hf.mem_row_iff hh).2 ⟨hm, Std.ReflCmp.compare_self⟩
    have hremove := hf.remove?_eq (h := h) hfit
    rw [if_pos hrow] at hremove
    exact ⟨tree (r.pull _ h), by rw [Index.remove?, hremove]; rfl, .tree hrow, rfl, hf.pull hrow,
      hf.handles_pull hrow⟩
  | array g =>
    have hf : g.Filed source := hf
    obtain ⟨address, hslot⟩ := AddressGrid.mem_handles_iff.1 hm
    have hholder := hf.holder?_eq_some_iff.2 hslot
    have haddress := ((hf.holder?_iff hh).1 hholder).2
    have hremove := AddressGrid.remove?_eq (h := h) hfit
    rw [haddress, Option.bind_some, if_pos hholder] at hremove
    exact ⟨array (g.vacate address), by rw [Index.remove?, hremove]; rfl, .array hholder, rfl,
      hf.vacate hholder, hf.handles_vacate hholder⟩
  | heap g =>
    have hf : g.Filed source := hf
    obtain ⟨after, hremove, hfiled, hperm, hproj, htarget, horder⟩ := hf.remove?_eq hh hm
    refine ⟨heap after, by rw [Index.remove?, hremove]; rfl, .heap, ?_, hfiled, hperm⟩
    rw [blank, blank, hproj, htarget, horder]

theorem Sound.remove? (hi : i.Sound source) (hr : i.Reads shape) (he : e.Conforms shape)
    (hh : source h = some e) : ∃ j, i.remove? h e = .ok (some j) ∧ Removed h e i j ∧
      j.blank = i.blank ∧ j.Filed source ∧ j.handles.Perm (i.handles.erase h) :=
  hi.filed.remove? hr he hh ((hi.complete h).2 (by simp [hh]))

theorem Filed.remove?_eq_none (hf : i.Filed source) (hfit : i.projection.Fits e)
    (hh : h ∉ i.handles) : i.remove? h e = .ok none := by
  cases i with
  | list l =>
    have hremove : l.remove? h = none := ScanList.remove?_eq.trans (if_neg hh)
    rw [Index.remove?, hremove]
    rfl
  | hash c =>
    have hf : c.Filed source := hf
    rw [Index.remove?, HashChains.remove?_eq hfit,
      if_neg fun hm => hh (hf.mem_handles_iff.2 ⟨_, hm⟩)]
    rfl
  | tree r =>
    have hf : r.Filed source := hf
    rw [Index.remove?, hf.remove?_eq hfit, if_neg fun hm => hh (hf.mem_handles_iff.2 ⟨_, hm⟩)]
    rfl
  | array g =>
    have hf : g.Filed source := hf
    have hfree (address : Nat) : g.holder? address ≠ some h := fun hholder =>
      hh (AddressGrid.mem_handles_iff.2 ⟨address, hf.holder?_eq_some_iff.1 hholder⟩)
    rw [Index.remove?, AddressGrid.remove?_eq hfit]
    cases g.addressOf (g.projection.keyOf e) <;> simp [hfree]
  | heap g =>
    have hf : g.Filed source := hf
    have hfit : g.projection.Fits e := hfit
    have hplace : OrderedTable.find? Handle.compare h g.places = none :=
      Option.not_isSome_iff_eq_none.1 fun hsome => hh (hf.isSome_placeOf_iff.1 hsome)
    rw [Index.remove?, GroupHeaps.remove?, Projection.project_eq hfit, Checked.ok_bind, hplace]
    cases g.group? (g.projection.keyOf e) <;> rfl

theorem Sound.remove (hi : i.Sound source) (hr : i.Reads shape) (he : e.Conforms shape)
    (hh : source h = some e) : ∃ j, i.remove h e = .ok j ∧
      j.Sound (Function.update source h none) ∧ j.blank = i.blank := by
  obtain ⟨j, hremove, -, hb, hf, hp⟩ := hi.remove? hr he hh
  exact ⟨j, by rw [Index.remove, hremove]; rfl, hi.of_removed hb hf hp, hb⟩

theorem Sound.removed (hi : i.Sound source) (hr : i.Reads shape) (he : e.Conforms shape)
    (hh : source h = some e) (hremove : i.remove h e = .ok j) : Removed h e i j := by
  obtain ⟨k, hk, hremoved, _⟩ := hi.remove? hr he hh
  rw [Index.remove, hk] at hremove
  obtain rfl := Except.ok.inj hremove
  exact hremoved

/-! ## Changes in place -/

/-- Whether two versions of an entry have different places in an index. -/
def moves (before after : Entry) : Index → Bool
  | .list _ => false
  | .heap g => !Key.same (g.projection.keyOf before) (g.projection.keyOf after) ||
      !(g.targetOf before).same (g.targetOf after)
  | i => !Key.same (i.projection.keyOf before) (i.projection.keyOf after)

theorem isAffected_eq {old new : Entry} (hr : i.Reads shape) (ho : old.Conforms shape)
    (hn : new.Conforms shape) : i.isAffected old new = .ok (i.moves old new) := by
  cases i with
  | list l => rfl
  | heap g => exact GroupHeaps.isAffected_eq (hr.heap ho) (hr.heap hn)
  | hash c => exact Projection.changed_eq (hr.fits ho) (hr.fits hn)
  | tree r => exact Projection.changed_eq (hr.fits ho) (hr.fits hn)
  | array g => exact Projection.changed_eq (hr.fits ho) (hr.fits hn)

theorem level_of_moves {old new : Entry} (hm : i.moves old new = false) :
    i.kind = .list ∨ Key.compare (i.projection.keyOf old) (i.projection.keyOf new) = .eq := by
  cases i with
  | list l => exact .inl rfl
  | heap g =>
    simp only [moves, Bool.or_eq_false_iff, Bool.not_eq_false'] at hm
    exact .inr (Projection.same_keyOf_iff.1 hm.1)
  | hash c => exact .inr (Projection.same_keyOf_iff.1 (by simpa [moves] using hm))
  | tree r => exact .inr (Projection.same_keyOf_iff.1 (by simpa [moves] using hm))
  | array g => exact .inr (Projection.same_keyOf_iff.1 (by simpa [moves] using hm))

theorem Sound.filed_change (hi : i.Sound source) (hr : i.Reads shape) {old new : Entry}
    (hh : source h = some old) (hn : new.Conforms shape) (hm : i.moves old new = false) :
    i.Filed (Function.update source h (some new)) := by
  have hcongr {π : Projection} (hfit : π.Fits new)
      (level : Key.compare (π.keyOf old) (π.keyOf new) = .eq)
      (hfits : ∀ k e, k ∈ i.handles → source k = some e → π.Fits e) :
      ∀ k ∈ i.handles, ∀ e, source k = some e → ∃ e',
        Function.update source h (some new) k = some e' ∧ π.Fits e' ∧
        Key.compare (π.keyOf e) (π.keyOf e') = .eq := by
    intro k hk e he
    by_cases hkh : k = h
    · subst hkh
      obtain rfl := Option.some.inj (he.symm.trans hh)
      exact ⟨new, Function.update_self _ _ _, hfit, level⟩
    · exact ⟨e, (Function.update_of_ne hkh _ _).trans he, hfits k e hk he,
        Std.ReflCmp.compare_self⟩
  have hlevel := level_of_moves hm
  cases i with
  | list l =>
    have hf : l.Filed source := hi.filed
    refine ScanList.Filed.congr hf fun k hk => ?_
    by_cases hkh : k = h
    · exact ⟨new, by rw [hkh, Function.update_self], hr.fits hn⟩
    · rw [Function.update_of_ne hkh]
      exact hf.keyed k hk
  | hash c =>
    have hf : c.Filed source := hi.filed
    refine hf.congr (hcongr (hr.fits hn) (hlevel.resolve_left (by simp [kind])) ?_)
    intro k e hk he
    obtain ⟨e', he', hfit⟩ := hf.exists_entry hk
    exact Option.some.inj (he'.symm.trans he) ▸ hfit
  | tree r =>
    have hf : r.Filed source := hi.filed
    refine hf.congr (hcongr (hr.fits hn) (hlevel.resolve_left (by simp [kind])) ?_)
    intro k e hk he
    obtain ⟨e', he', hfit⟩ := hf.exists_entry hk
    exact Option.some.inj (he'.symm.trans he) ▸ hfit
  | array g =>
    have hf : g.Filed source := hi.filed
    refine hf.congr (hcongr (hr.fits hn) (hlevel.resolve_left (by simp [kind])) ?_)
    intro k e hk he
    obtain ⟨e', he', hfit⟩ := hf.exists_entry hk
    exact Option.some.inj (he'.symm.trans he) ▸ hfit
  | heap g =>
    have hf : g.Filed source := hi.filed
    simp only [moves, Bool.or_eq_false_iff, Bool.not_eq_false', Value.same_eq_true_iff] at hm
    refine hf.congr fun k hk e he => ?_
    by_cases hkh : k = h
    · subst hkh
      obtain rfl := Option.some.inj (he.symm.trans hh)
      exact ⟨new, Function.update_self _ _ _, hr.heap hn, Projection.same_keyOf_iff.1 hm.1, hm.2⟩
    · obtain ⟨e', he', hreads⟩ := hf.exists_entry hk
      obtain rfl := Option.some.inj (he.symm.trans he')
      exact ⟨e, (Function.update_of_ne hkh _ _).trans he, hreads, Std.ReflCmp.compare_self,
        Std.ReflCmp.compare_self⟩

/-- An index in which an entry stays in its place is sound for the source with the new version. -/
theorem Sound.change (hi : i.Sound source) (hr : i.Reads shape) {old new : Entry}
    (hh : source h = some old) (hn : new.Conforms shape) (hm : i.moves old new = false) :
    i.Sound (Function.update source h (some new)) where
  filed := hi.filed_change hr hh hn hm
  nodup := hi.nodup
  complete k := by
    rw [hi.complete]
    by_cases hk : k = h
    · simp [hk, hh]
    · simp [hk]
  admitted k x hx := by
    rcases level_of_moves hm with hlist | level
    · cases i with
      | list l => exact ⟨trivial, fun hu => by simp [isUnique] at hu⟩
      | hash | tree | array | heap => simp [kind] at hlist
    · by_cases hk : k = h
      · subst hk
        obtain rfl : new = x := by simpa using hx
        exact ((hi.admitted k old hh).of_level level).congr rfl fun g hg =>
          Function.update_of_ne hg _ _
      · rw [Function.update_of_ne hk] at hx
        have hold := hi.admitted k x hx
        refine ⟨hold.inBounds, fun hu g hg other ho hother => ?_⟩
        by_cases hgh : g = h
        · subst hgh
          obtain rfl : new = other := by simpa using ho
          exact hold.unrivalled hu g hg old hh
            (Std.TransCmp.eq_trans hother (Std.OrientedCmp.eq_symm level))
        · rw [Function.update_of_ne hgh] at ho
          exact hold.unrivalled hu g hg other ho hother

/-! ## Empty indices -/

theorem clear_blank : i.clear.blank = i.blank := by cases i <;> rfl

theorem handles_clear : i.clear.handles = [] := by cases i <;> rfl

theorem handles_blank : i.blank.handles = [] := by cases i <;> rfl

theorem sound_of_empty (hf : i.Filed source) (hh : i.handles = []) (hs : ∀ h, source h = none) :
    i.Sound source where
  filed := hf
  nodup := by simp [hh]
  complete := by simp [hh, hs]
  admitted h e he := by simp [hs] at he

theorem clear_filed : i.clear.Filed source := by
  cases i with
  | list l => exact l.clear_filed
  | hash c => exact c.clear_filed
  | tree r => exact r.clear_filed
  | array g => exact g.clear_filed
  | heap g => exact g.clear_filed

theorem blank_filed : i.blank.Filed source := by
  cases i with
  | list l => exact ScanList.empty_filed _
  | hash c => exact HashChains.empty_filed _ _
  | tree r => exact KeyRows.empty_filed _ _
  | array g => exact AddressGrid.empty_filed _ _
  | heap g => exact GroupHeaps.empty_filed _ _ _

theorem Filed.size_eq (hf : i.Filed source) : i.size = i.handles.length := by
  cases i with
  | list l => rfl
  | hash c => exact HashChains.Filed.entries hf
  | tree r => exact KeyRows.Filed.entries hf
  | array g => exact AddressGrid.Filed.entries hf
  | heap g => exact GroupHeaps.Filed.length_places hf

theorem Sound.size_eq (hi : i.Sound source) : i.size = i.handles.length := hi.filed.size_eq

end IndexedStore.Index
