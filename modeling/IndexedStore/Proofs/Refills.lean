import IndexedStore.Proofs.Arrivals
import IndexedStore.Proofs.Drains
import IndexedStore.Proofs.InsertionOrders

/-!
# Refills

The entries that a drain answers go back into the drained store in that order: each index took them
beside each other before. They come under handles that no entry had, and fill every index with what
it had. A list keeps the order of arrival, and in a tree an entry whose key is not below the others
comes last, so a walk visits the entries in the order it visited them in before.
-/
namespace IndexedStore

theorem KeyRows.Filed.handles_push_last {r : KeyRows} {source : Source} {key : Key} {h : Handle}
    (hf : r.Filed source) (hlast : ∀ row ∈ r.rows, (Key.compare row.1 key).isLE) :
    (r.push key h).handles = r.handles ++ [h] := by
  rw [handles, handles, push_rows, row_eq_listAt]
  obtain ⟨pre, post, _, above, hplace⟩ := OrderedTable.putList_cases hf.ascending key h
  have hpost (hsub : post ⊆ r.rows) : post = [] := by
    refine List.eq_nil_iff_forall_not_mem.2 fun row hrow => ?_
    have hle := hlast row (hsub hrow)
    rw [Std.OrientedCmp.gt_of_lt (above row hrow)] at hle
    cases hle
  rcases hplace with ⟨hrows, hput⟩ | ⟨k, v, -, hrows, hput⟩
  · obtain rfl := hpost (by simp [hrows])
    rw [hput, hrows]
    simp
  · obtain rfl := hpost (by simp [hrows])
    rw [hput, hrows]
    simp

namespace Index

variable {i j : Index} {source : Source} {h : Handle} {e : Entry}

/-- A list has a new handle last, and so has a tree if no key is above that of its entry. -/
theorem Added.handles_eq (hadd : Added h e i j) (hf : i.Filed source)
    (hlast : i.kind = .list ∨ i.kind = .tree ∧ ∀ k ∈ i.handles, ∀ x, source k = some x →
      (Key.compare (i.projection.keyOf x) (i.projection.keyOf e)).isLE) :
    j.handles = i.handles ++ [h] := by
  cases hadd with
  | list => rfl
  | @tree r =>
    obtain hlist | ⟨_, hkeys⟩ := hlast
    · cases hlist
    · have hf : r.Filed source := hf
      refine hf.handles_push_last fun row hrow => ?_
      obtain ⟨k, hk⟩ := List.exists_mem_of_ne_nil _ (hf.occupied row hrow)
      obtain ⟨x, hx, _, level⟩ := hf.placed row hrow k hk
      rw [← Std.TransCmp.congr_left level]
      exact hkeys k (List.mem_flatMap.2 ⟨row, hrow, hk⟩) x hx
  | hash | array | heap => obtain hlist | ⟨htree, _⟩ := hlast <;> contradiction

end Index

/-- Whether an index lists some entries in the order they come in: a list any, a tree those whose
keys ascend. -/
def Descriptor.ListsInOrder (shape : Shape) (es : List Entry) (d : Descriptor) : Prop :=
  d.kind = .list ∨ d.kind = .tree ∧
    StableOrder.Ascends Key.compare (fun e => (d.keyFields shape).map e.field) es

theorem Descriptor.ListsInOrder.sublist {shape : Shape} {es fs : List Entry} {d : Descriptor}
    (hd : d.ListsInOrder shape fs) (hsub : es.Sublist fs) : d.ListsInOrder shape es :=
  hd.imp_right fun ⟨htree, hascends⟩ => ⟨htree, List.Pairwise.sublist hsub hascends⟩

namespace Store

variable {s t u : Store} {h : Handle} {e : Entry} {es : List Entry} {items : Arrivals}
  {d : Descriptor}

/-! ## Insertions that succeed -/

structure Gains (s : Store) (h : Handle) (e : Entry) (t : Store) : Prop where
  invariant : t.Invariant
  shape : t.shape = s.shape
  descriptors : t.descriptors = s.descriptors
  conforms : e.Conforms s.shape
  free : s.source h = none
  source : t.source = Function.update s.source h (some e)
  took : List.Forall₂ (Took t.source h e) (markAll s.indices) t.indices
  generation : t.slab.generation = s.slab.generation
  issued : h.generation = s.slab.generation h.slot.toNat

theorem gains_of_insert (hs : s.Invariant) (ha : (Operation.insert e).Allowed s)
    (hinsert : s.insert e = .ok (.ok h, t)) : s.Gains h e t := by
  have hroom := hs.slab.hasRoom ha.2
  have hshape : e.shape = s.shape := by
    by_contra hne
    rw [insert, if_pos hne] at hinsert
    cases hinsert
  have he : e.Conforms s.shape := ⟨ha.1, hshape⟩
  obtain ⟨k, slab, hslab, ⟨hk, rfl⟩ | ⟨_, _, hk, _⟩⟩ := insert_slab hshape hinsert
  · obtain rfl := Except.ok.inj hk
    obtain ⟨hgeneration, hissued⟩ := Slab.insert_generation hs.slab hroom hslab
    obtain ⟨_, hinsert', hcase⟩ := exists_insertion hs he hroom
    obtain rfl := Except.ok.inj (hinsert'.symm.trans hinsert)
    cases hcase with
    | taken hfree hsound hget _ htook =>
      obtain ⟨hdesc, hinv⟩ := invariant_of_took hs he hfree hsound hget htook
      exact ⟨hinv, rfl, hdesc, he, hfree, hget, htook, hgeneration, hissued⟩
  · cases hk

theorem Gains.entries_eq (hs : s.Invariant) (hg : s.Gains h e t)
    (hd : s.descriptors.head? = some d) (ho : d.ListsInOrder s.shape (s.entries ++ [e])) :
    t.entries = s.entries ++ [e] := by
  obtain ⟨primary, rest, hi⟩ := List.exists_cons_of_ne_nil hs.primary
  have hmem : primary ∈ s.indices := hi ▸ List.mem_cons_self
  have hstands := hs.stands primary hmem
  have hsound := hs.sound primary hmem
  obtain rfl : primary.descriptor = d := by simpa [Store.descriptors, hi] using hd
  -- The primary index is the first of those that took the handle.
  have htook := hg.took
  rw [markAll, hi, List.map_cons] at htook
  obtain ⟨primary', rest', ⟨_, hadd⟩, _, hi'⟩ := List.forall₂_cons_left_iff.1 htook
  have hold : s.handles = primary.index.handles := by rw [handles, hi]
  have hnew : t.handles = primary.index.handles ++ [h] := by
    rw [handles, hi']
    refine (hsound.added hstands.reads hg.free hg.conforms hadd).handles_eq hsound.filed ?_
    rw [hstands.describes.1]
    refine ho.imp_right ?_
    rintro ⟨htree, hascends⟩
    refine ⟨htree, fun k hk x hx => ?_⟩
    rw [hstands.keyOf_eq, hstands.keyOf_eq]
    refine (List.pairwise_append.1 hascends).2.2 x ?_ e List.mem_cons_self
    rw [Store.entries_eq, hold]
    exact List.mem_filterMap.2 ⟨k, hk, hx⟩
  have hsame : s.handles.filterMap t.source = s.handles.filterMap s.source :=
    List.filterMap_congr fun k hk => by
      have hlive := (hs.handles_spec.2 k).1 hk
      rw [hg.source, Function.update_of_ne fun heq => by simp [heq, hg.free] at hlive]
  rw [Store.entries_eq, Store.entries_eq, hnew, ← hold, List.filterMap_append, hsame, hg.source]
  simp

/-- Entries that a store took in turn, each with the handle it took it under. -/
inductive Fills : Store → Arrivals → Store → Prop
  | nil {s : Store} : Fills s [] s
  | cons {s t u : Store} {h : Handle} {e : Entry} {items : Arrivals} : s.Gains h e t →
      Fills t items u → Fills s ((h, e) :: items) u

theorem exists_fills {answers : List (Except Error Handle)} (hs : s.Invariant)
    (ht : ∀ e ∈ es, e.Typed) (hroom : s.size + es.length ≤ UInt32.size)
    (hall : s.insertAll es = .ok (answers, t)) (hok : ∀ answer ∈ answers, answer.isOk = true) :
    ∃ items : Arrivals, items.map Prod.snd = es ∧ answers = items.handles.map .ok ∧
      s.Fills items t := by
  induction es generalizing s answers with
  | nil =>
    obtain ⟨rfl, rfl⟩ := Prod.mk.inj (Except.ok.inj hall)
    exact ⟨[], rfl, rfl, .nil⟩
  | cons e rest ih =>
    rw [List.length_cons] at hroom
    have ha : (Operation.insert e).Allowed s := ⟨ht e List.mem_cons_self, by omega⟩
    obtain ⟨⟨answer, u⟩, hinsert, hall⟩ := Checked.bind_eq_ok.1 hall
    obtain ⟨⟨others, t'⟩, hrest, hall⟩ := Checked.bind_eq_ok.1 hall
    obtain ⟨rfl, rfl⟩ := Prod.mk.inj (Except.ok.inj hall)
    obtain ⟨hfirst, hothers⟩ := List.forall_mem_cons.1 hok
    cases answer with
    | error err => cases hfirst
    | ok h =>
      have hg := gains_of_insert hs ha hinsert
      have hsize := size_le_of_insert hs ha (t := u) (by rw [Operation.apply, hinsert]; rfl)
      obtain ⟨items, hentries, rfl, hf⟩ := ih hg.invariant
        (fun x hx => ht x (List.mem_cons_of_mem _ hx)) (by omega) hrest hothers
      exact ⟨(h, e) :: items, by rw [List.map_cons, hentries], rfl, .cons hg hf⟩

namespace Fills

theorem source_eq_some_iff (hf : s.Fills items t) :
    t.source h = some e ↔ s.source h = some e ∨ (h, e) ∈ items := by
  induction hf with
  | nil => simp
  | @cons s u t k x items hg _ ih =>
    rw [ih, hg.source, List.mem_cons]
    by_cases hk : h = k
    · subst hk
      simp [hg.free, eq_comm]
    · simp [hk]

theorem source_eq_none (hf : s.Fills items t) (hh : h ∈ items.handles) : s.source h = none := by
  induction hf with
  | nil => cases hh
  | @cons s u t k x items hg _ ih =>
    by_cases hk : h = k
    · exact hk ▸ hg.free
    · have hfree := ih ((List.mem_cons.1 hh).resolve_left hk)
      rwa [hg.source, Function.update_of_ne hk] at hfree

theorem nodup (hf : s.Fills items t) : items.handles.Nodup := by
  induction hf with
  | nil => exact List.nodup_nil
  | @cons s u t k x items hg hf ih =>
    refine List.nodup_cons.2 ⟨fun hk => ?_, ih⟩
    have hfree := hf.source_eq_none hk
    simp [hg.source] at hfree

/-- The handles have the generations that their slots had before the first insertion. -/
theorem issued (hf : s.Fills items t) (hh : h ∈ items.handles) :
    h.generation = s.slab.generation h.slot.toNat := by
  induction hf with
  | nil => cases hh
  | @cons s u t k x items hg _ ih =>
    rcases List.mem_cons.1 hh with rfl | hh
    · exact hg.issued
    · rw [ih hh, hg.generation]

theorem entries_eq (hs : s.Invariant) (hf : s.Fills items t) (hd : s.descriptors.head? = some d)
    (ho : d.ListsInOrder s.shape (s.entries ++ items.map Prod.snd)) :
    t.entries = s.entries ++ items.map Prod.snd := by
  induction hf with
  | nil => simp
  | @cons s u t k x items hg _ ih =>
    rw [List.map_cons, List.append_cons] at ho ⊢
    have hfirst := hg.entries_eq hs hd (ho.sublist (List.sublist_append_left _ _))
    rw [← hfirst] at ho ⊢
    exact ih hg.invariant (hg.descriptors ▸ hd) (hg.shape ▸ ho)

end Fills

/-! ## What a drain answers -/

section Entries

variable (hs : s.Invariant)
include hs

/-- A store takes each of its entries beside the others. -/
theorem permits_live {d : Declared} (hd : d ∈ s.indices) (he : s.source h = some e) :
    d.descriptor.Permits s.shape (Function.update s.source h none) e :=
  ((hs.stands d hd).admits_iff (Function.update_self _ _ _)).1
    (((hs.sound d hd).admitted h e he).congr rfl fun _ hk => Function.update_of_ne hk _ _)

/-- An emptied store accepts the entries it had, all of them together. -/
theorem acceptsAll_entries : s.clear.AcceptsAll s.entries where
  each e he := by
    obtain ⟨h, hh⟩ := hs.mem_contents_iff.1 (hs.mem_entries_iff.1 he)
    refine ⟨(hs.conforms hh).shape_eq, fun d hd => ?_⟩
    rw [descriptors_clear, descriptors] at hd
    obtain ⟨i, hi, rfl⟩ := List.mem_map.1 hd
    refine (permits_live hs hi hh).mono fun k other hk => ?_
    cases (Slab.clear_get?.symm.trans hk : none = some other)
  apart := by
    rw [entries_eq, List.pairwise_filterMap]
    refine hs.handles_spec.1.imp fun {h k} hne e he e' he' d hd hu => ?_
    rw [descriptors_clear, descriptors] at hd
    obtain ⟨i, hi, rfl⟩ := List.mem_map.1 hd
    exact (permits_live hs hi he).unrivalled hu k e' (by rw [Function.update_of_ne hne.symm, he'])

theorem listsInOrder_entries (hd : s.descriptors.head? = some d)
    (hkind : d.kind = .list ∨ d.kind = .tree) : d.ListsInOrder s.shape s.entries := by
  obtain ⟨primary, rest, hi⟩ := List.exists_cons_of_ne_nil hs.primary
  have hmem : primary ∈ s.indices := hi ▸ List.mem_cons_self
  have hstands := hs.stands primary hmem
  have hf := (hs.sound primary hmem).filed
  have hhandles : s.handles = primary.index.handles := by rw [handles, hi]
  obtain rfl : primary.descriptor = d := by simpa [descriptors, hi] using hd
  refine hkind.imp_right fun htree => ⟨htree, ?_⟩
  obtain ⟨rows, hrows⟩ := Index.exists_tree_of_kind (hstands.describes.1.trans htree)
  have hkeys : rows.projection.keyOf =
      fun e => (primary.descriptor.keyFields s.shape).map e.field := by
    funext e
    rw [← hstands.keyOf_eq e, hrows]
    rfl
  rw [hrows] at hf hhandles
  exact hkeys ▸ ascends_entries hf hhandles

end Entries

/-- What a drain leaves of a store. Before it a walk met every entry once. -/
structure Drained (s t : Store) : Prop where
  distinct : (s.toList.map Prod.fst).Nodup
  live : ∀ h e, (h, e) ∈ s.toList ↔ s.entry? h = some e
  shape : t.shape = s.shape
  descriptors : t.descriptors = s.descriptors
  vacant : t.Vacant

theorem drained_clear (hs : s.Invariant) : s.Drained s.clear where
  distinct := hs.nodup_fst_toList
  live _ _ := hs.mem_toList_iff
  shape := rfl
  descriptors := descriptors_clear
  vacant := vacant_clear hs

/-! ## Drain and refill -/

/-- What a store is that was drained to `t` and filled again with its entries, in the order the drain
answered them and under the given handles. -/
structure Refilled (s t : Store) (handles : List Handle) (u : Store) : Prop where
  reached : List.Forall₂ (fun h e => u.entry? h = some e) handles s.entries
  distinct : handles.Nodup
  /-- No handle is one that an entry had when the store was drained. -/
  fresh : ∀ h ∈ handles, s.entry? h = none
  /-- Nor one that an entry had at any time before, if no generation wrapped since. -/
  unused : ∀ past : Store, past.Reachable → past.LeadsTo t → ∀ h ∈ handles, past.entry? h = none
  contents : u.contents = s.contents
  walked : ∀ d, s.descriptors.head? = some d → d.kind = .list ∨ d.kind = .tree ∨ d.kind = .array →
    u.entries = s.entries
  slices : ∀ slot < s.indices.length, ∀ probe, probe.Conforms s.shape → ∃ found found',
    s.slice slot probe = .ok found ∧ u.slice slot probe = .ok found' ∧
    (found.map Prod.snd).Perm (found'.map Prod.snd)

section Refills

variable (hf : s.clear.Fills items u)
include hf

/-- No handle is issued again that an entry had until the clearance: its slot moved on by one
generation. -/
theorem Fills.fresh (hh : h ∈ items.handles) : s.source h = none := by
  refine Option.eq_none_iff_forall_ne_some.2 fun e he => ?_
  have hissued := hf.issued hh
  have hnext : s.clear.slab.generation h.slot.toNat = h.generation + 1 := Slab.clear_generation he
  rw [hnext] at hissued
  simp at hissued

variable (hs : s.Invariant)
include hs

theorem Fills.unused {past : Store} (hpast : past.Reachable) (hleads : past.LeadsTo s.clear)
    (hh : h ∈ items.handles) : past.source h = none := by
  refine Option.eq_none_iff_forall_ne_some.2 fun e he => ?_
  have hlive : (past.source h).isSome := Option.isSome_iff_exists.2 ⟨e, he⟩
  have hnone : s.clear.source h = none := (vacant_clear hs).unresolved h
  rcases hleads.outlives hpast hlive with hlive | hlt
  · simp [hnone] at hlive
  · rw [← hf.issued hh] at hlt
    exact UInt32.lt_irrefl _ hlt

theorem Fills.walked (hitems : items.map Prod.snd = s.entries) (hd : s.descriptors.head? = some d)
    (hkind : d.kind = .list ∨ d.kind = .tree) : u.entries = s.entries := by
  have hempty := (vacant_clear hs).entries_eq
  have horder : d.ListsInOrder s.clear.shape (s.clear.entries ++ items.map Prod.snd) := by
    rw [hempty, List.nil_append, hitems]
    exact listsInOrder_entries hs hd hkind
  have hfirst : s.clear.descriptors.head? = some d := by rw [descriptors_clear, hd]
  have hwalk := hf.entries_eq (clear_spec hs).invariant hfirst horder
  rw [hwalk, hempty, List.nil_append, hitems]

theorem Fills.refilled (hitems : items.map Prod.snd = s.entries) (halike : s.AnswersAlike u) :
    s.Refilled s.clear items.handles u where
  reached := by
    rw [← hitems, Arrivals.handles, List.forall₂_map_left_iff, List.forall₂_map_right_iff,
      List.forall₂_same]
    exact fun item hitem => hf.source_eq_some_iff.2 (.inr hitem)
  distinct := hf.nodup
  fresh _ hh := hf.fresh hh
  unused _ hpast hleads _ hh := hf.unused hs hpast hleads hh
  contents := halike.contents
  walked d hd hkind := by
    rw [← or_assoc] at hkind
    rcases hkind with hkind | harray
    · exact hf.walked hs hitems hd hkind
    · exact (halike.array_primary d hd harray).symm
  slices := halike.slices

end Refills

/-- A drain answers the entries in the order of a walk and leaves nothing behind. To insert them
again in that order succeeds for each, under handles that no entry had before, and restores what the
indices answer; a list, a tree or an address grid in the first place restores the walk as well. -/
theorem drain_refill (hr : s.Reachable) : ∃ t, s.drain = .ok (s.entries, t) ∧ s.Drained t ∧
    ∃ handles u, t.insertAll s.entries = .ok (handles.map .ok, u) ∧ s.Refilled t handles u := by
  have hs := hr.invariant
  have hdrained := drained_clear hs
  have hclear := (clear_spec hs).invariant
  have htyped : ∀ e ∈ s.entries, e.Typed := fun e he =>
    (hs.conforms_of_mem (hs.mem_entries_iff.1 he)).typed
  have hroom : s.clear.size + s.entries.length ≤ UInt32.size := by
    rw [hdrained.vacant.size_eq, Nat.zero_add, hs.length_entries]
    exact hs.slab.size_le
  obtain ⟨answers, u, hall, hu, hshape, hdesc, haccepts, hcontents⟩ :=
    insertAll_spec hclear htyped hroom
  have hok := haccepts.2 (acceptsAll_entries hs)
  obtain ⟨items, hitems, rfl, hf⟩ := exists_fills hclear htyped hroom hall hok
  have hsame : u.contents = s.contents := by
    rw [hcontents hok, hdrained.vacant.contents_eq, add_zero, hs.coe_entries]
  exact ⟨s.clear, drain_eq hs, hdrained, items.handles, u, hall, hf.refilled hs hitems
    (answersAlike hs hu hshape (hdesc.trans descriptors_clear) hsame)⟩

def walkedLayout : List Descriptor :=
  [.ofForm (.tree [2] false), .ofForm (.hash [1] true), .ofForm (.array [⟨1, 0, 8⟩])]

/-- A drain after one entry gave its slot to another. The refill uses the slots from the last on, and
the one that was used twice in its third generation. -/
theorem drain_refill_of_reuse : ∃ (past s t : Store) (handles : List Handle) (u : Store),
    past.Reachable ∧ past.LeadsTo t ∧ past.entry? ⟨0, 0⟩ = some (samplePair 1 30) ∧
    s.Reachable ∧ s.drain = .ok (s.entries, t) ∧ s.Drained t ∧
    t.insertAll s.entries = .ok (handles.map .ok, u) ∧ s.Refilled t handles u ∧
    s.entries = [samplePair 2 20, samplePair 3 30, samplePair 4 30] ∧
    handles = [⟨2, 1⟩, ⟨1, 1⟩, ⟨0, 2⟩] := by
  obtain ⟨fresh, hfresh⟩ : ∃ s, create ⟨[.int, .int]⟩ walkedLayout = .ok s := ⟨_, rfl⟩
  obtain ⟨past, hpast⟩ : ∃ t, run (pairBatch.map .insert) fresh = .ok t := by
    obtain rfl := Except.ok.inj hfresh
    exact ⟨_, rfl⟩
  obtain ⟨freed, hfreed⟩ : ∃ t, (Operation.delete ⟨0, 0⟩).apply past = .ok t := by
    obtain rfl := Except.ok.inj hfresh
    obtain rfl := Except.ok.inj hpast
    exact ⟨_, rfl⟩
  obtain ⟨s, hs⟩ : ∃ t, (Operation.insert (samplePair 4 30)).apply freed = .ok t := by
    obtain rfl := Except.ok.inj hfresh
    obtain rfl := Except.ok.inj hpast
    obtain rfl := Except.ok.inj hfreed
    exact ⟨_, rfl⟩
  have hfacts : (Operation.insert (samplePair 4 30)).Allowed freed ∧
      past.slab.Unwrapped freed.slab ∧ freed.slab.Unwrapped s.slab ∧
      s.slab.Unwrapped s.clear.slab ∧ past.entry? ⟨0, 0⟩ = some (samplePair 1 30) ∧
      s.entries = [samplePair 2 20, samplePair 3 30, samplePair 4 30] ∧
      (s.clear.insertAll s.entries).map Prod.fst = .ok [.ok ⟨2, 1⟩, .ok ⟨1, 1⟩, .ok ⟨0, 2⟩] := by
    obtain rfl := Except.ok.inj hfresh
    obtain rfl := Except.ok.inj hpast
    obtain rfl := Except.ok.inj hfreed
    obtain rfl := Except.ok.inj hs
    exact ⟨⟨rfl, by decide⟩, by decide, by decide, by decide +kernel, by decide, by decide,
      by decide +kernel⟩
  obtain ⟨hallowed, hwrap, hwrap', hwrap'', hfirst, hentries, hanswers⟩ := hfacts
  have hr : past.Reachable := .filled hfresh (by decide) (by decide) hpast
  have hdelete : (Operation.delete ⟨0, 0⟩).Allowed past := trivial
  have hreach : s.Reachable := (hr.step hdelete hfreed).step hallowed hs
  have hdrain := drain_eq hreach.invariant
  obtain ⟨t, hdrain', hdrained, handles, u, hall, hrefilled⟩ := drain_refill hreach
  obtain ⟨-, rfl⟩ := Prod.mk.inj (Except.ok.inj (hdrain.symm.trans hdrain'))
  have ha : Operation.drain.Allowed s := trivial
  have hlast : Operation.drain.apply s = .ok s.clear := by
    rw [Operation.apply, hdrain]
    rfl
  have hleads : past.LeadsTo s.clear :=
    .step (.step (.step .refl hdelete hfreed hwrap) hallowed hs hwrap') ha hlast hwrap''
  rw [hall] at hanswers
  have hhandles : handles = [⟨2, 1⟩, ⟨1, 1⟩, ⟨0, 2⟩] :=
    List.map_injective_iff.2 (fun _ _ => Except.ok.inj) (Except.ok.inj hanswers)
  exact ⟨past, s, s.clear, handles, u, hr, hleads, hfirst, hreach, hdrain, hdrained, hall, hrefilled,
    hentries, hhandles⟩

end Store
end IndexedStore
