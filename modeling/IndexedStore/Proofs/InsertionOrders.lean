import IndexedStore.Proofs.Acceptance
import IndexedStore.Proofs.SharedContents

/-!
# Orders of insertion

A batch of entries goes into an empty store as a whole if each of them is permitted alone and no two
clash in a unique index, which does not depend on the order of the batch. In any order it gives the
same contents, so the stores it leads to are alike.
-/
namespace IndexedStore

namespace Descriptor

variable {shape : Shape} {others : Source} {h : Handle} {a b e x : Entry} {d : Descriptor}

def Separates (shape : Shape) (a b : Entry) (d : Descriptor) : Prop :=
  d.isUnique = true → ¬ a.Level (d.keyFields shape) b

theorem Separates.symm (hd : d.Separates shape a b) : d.Separates shape b a :=
  fun hu level => hd hu level.symm

/-- An index permits an entry beside one more if it takes the two beside each other. -/
theorem permits_update_iff (hfree : others h = none) :
    d.Permits shape (Function.update others h (some e)) x ↔
      d.Permits shape others x ∧ d.Separates shape e x := by
  constructor
  · intro hp
    have hfresh : d.Separates shape e x := fun hu level =>
      hp.unrivalled hu h e (Function.update_self _ _ _) level.symm
    refine ⟨⟨hp.inside, fun hu k other hk => hp.unrivalled hu k other ?_⟩, hfresh⟩
    have hkh : k ≠ h := fun heq => by simp [heq, hfree] at hk
    rwa [Function.update_of_ne hkh]
  · rintro ⟨hp, hfresh⟩
    refine ⟨hp.inside, fun hu k other hk level => ?_⟩
    by_cases hkh : k = h
    · rw [hkh, Function.update_self] at hk
      obtain rfl := Option.some.inj hk
      exact hfresh hu level.symm
    · rw [Function.update_of_ne hkh] at hk
      exact hp.unrivalled hu k other hk level

end Descriptor

namespace Store

variable {s t : Store} {shape : Shape} {layout : List Descriptor} {others : Source} {h : Handle}
  {a b e : Entry} {es fs : List Entry}

def insertAll : List Entry → Store → Checked (List (Except Error Handle) × Store)
  | [], s => return ([], s)
  | e :: rest, s => do
    let (answer, s) ← s.insert e
    let (answers, s) ← insertAll rest s
    return (answer :: answers, s)

/-! ## What a batch needs -/

def Apart (s : Store) (a b : Entry) : Prop := ∀ d ∈ s.descriptors, d.Separates s.shape a b

/-- Whether a store takes each entry of a batch, and any two of them beside each other. -/
structure AcceptsAll (s : Store) (es : List Entry) : Prop where
  each : ∀ e ∈ es, s.Accepts s.source e
  apart : es.Pairwise s.Apart

theorem Apart.symm (hab : s.Apart a b) : s.Apart b a := fun d hd => (hab d hd).symm

theorem acceptsAll_perm (hperm : es.Perm fs) : s.AcceptsAll es ↔ s.AcceptsAll fs := by
  have sub {es fs : List Entry} (hperm : es.Perm fs) (ha : s.AcceptsAll es) : s.AcceptsAll fs :=
    ⟨fun e he => ha.each e (hperm.mem_iff.2 he), hperm.pairwise ha.apart Apart.symm⟩
  exact ⟨sub hperm, sub hperm.symm⟩

section Layouts

variable (hshape : t.shape = s.shape) (hdesc : t.descriptors = s.descriptors)
include hshape hdesc

theorem accepts_congr : t.Accepts others e ↔ s.Accepts others e := by
  constructor
  · rintro ⟨hentry, hpermits⟩
    exact ⟨hentry.trans hshape, fun d hd => hshape ▸ hpermits d (hdesc ▸ hd)⟩
  · rintro ⟨hentry, hpermits⟩
    exact ⟨hentry.trans hshape.symm, fun d hd => hshape ▸ hpermits d (hdesc ▸ hd)⟩

theorem apart_congr : t.Apart = s.Apart := by
  funext a b
  rw [Apart, Apart, hshape, hdesc]

theorem acceptsAll_congr (hsource : t.source = s.source) : t.AcceptsAll es ↔ s.AcceptsAll es := by
  have haccepts (e : Entry) : t.Accepts t.source e ↔ s.Accepts s.source e := by
    rw [accepts_congr hshape hdesc, hsource]
  have hapart := apart_congr hshape hdesc
  exact ⟨fun h => ⟨fun e he => (haccepts e).1 (h.each e he), hapart ▸ h.apart⟩,
    fun h => ⟨fun e he => (haccepts e).2 (h.each e he), hapart ▸ h.apart⟩⟩

/-- A store that took an entry takes those that the store before takes and that stand apart. -/
theorem accepts_iff_of_inserted (hfree : s.source h = none)
    (hsource : t.source = Function.update s.source h (some e)) :
    t.Accepts t.source a ↔ s.Accepts s.source a ∧ s.Apart e a := by
  rw [accepts_congr hshape hdesc, hsource]
  constructor
  · rintro ⟨hentry, hpermits⟩
    have hboth (d : Descriptor) (hd : d ∈ s.descriptors) :=
      (Descriptor.permits_update_iff hfree).1 (hpermits d hd)
    exact ⟨⟨hentry, fun d hd => (hboth d hd).1⟩, fun d hd => (hboth d hd).2⟩
  · rintro ⟨⟨hentry, hpermits⟩, hapart⟩
    exact ⟨hentry, fun d hd => (Descriptor.permits_update_iff hfree).2 ⟨hpermits d hd, hapart d hd⟩⟩

theorem acceptsAll_cons_iff (hfree : s.source h = none)
    (hsource : t.source = Function.update s.source h (some e)) (he : s.Accepts s.source e) :
    s.AcceptsAll (e :: es) ↔ t.AcceptsAll es := by
  have haccepts (a : Entry) := accepts_iff_of_inserted (a := a) hshape hdesc hfree hsource
  have hapart := apart_congr hshape hdesc
  constructor
  · rintro ⟨heach, hpairs⟩
    obtain ⟨hfirst, hrest⟩ := List.pairwise_cons.1 hpairs
    exact ⟨fun a ha => (haccepts a).2 ⟨heach a (List.mem_cons_of_mem _ ha), hfirst a ha⟩,
      hapart ▸ hrest⟩
  · rintro ⟨heach, hpairs⟩
    refine ⟨List.forall_mem_cons.2 ⟨he, fun a ha => ((haccepts a).1 (heach a ha)).1⟩, ?_⟩
    exact List.pairwise_cons.2 ⟨fun a ha => ((haccepts a).1 (heach a ha)).2, hapart ▸ hpairs⟩

end Layouts

/-! ## What a batch leaves -/

theorem contents_of_inserted (hs : s.Invariant) (ht : t.Invariant) (hfree : s.source h = none)
    (hsource : t.source = Function.update s.source h (some e)) : t.contents = e ::ₘ s.contents := by
  have hfresh : h ∉ s.slab.toList.map Prod.fst := fun hm => by
    have hlive := (Slab.mem_handles_iff hs.slab).1 hm
    change (s.source h).isSome = true at hlive
    simp [hfree] at hlive
  have hnodup : (((h, e) :: s.slab.toList).map Prod.fst).Nodup :=
    List.nodup_cons.2 ⟨hfresh, Slab.nodup_handles hs.slab⟩
  have hitems : t.slab.toList.Perm ((h, e) :: s.slab.toList) := by
    refine (List.perm_ext_iff_of_nodup (Slab.nodup_handles ht.slab).of_map hnodup.of_map).2 ?_
    rintro ⟨k, x⟩
    rw [Slab.mem_toList_iff ht.slab, List.mem_cons, Slab.mem_toList_iff hs.slab]
    change t.source k = some x ↔ _ ∨ s.source k = some x
    rw [hsource]
    by_cases hk : k = h
    · subst hk
      simp [hfree, eq_comm]
    · simp [hk]
  exact Multiset.coe_eq_coe.2 (hitems.map Prod.snd)

/-- Insertions of well-typed entries answer; they all succeed exactly for a batch that the store
accepts, and then its entries are added to the contents. -/
theorem insertAll_spec (hs : s.Invariant) (ht : ∀ e ∈ es, e.Typed)
    (hroom : s.size + es.length ≤ UInt32.size) : ∃ answers t, s.insertAll es = .ok (answers, t) ∧
      t.Invariant ∧ t.shape = s.shape ∧ t.descriptors = s.descriptors ∧
      ((∀ answer ∈ answers, answer.isOk = true) ↔ s.AcceptsAll es) ∧
      ((∀ answer ∈ answers, answer.isOk = true) → t.contents = ↑es + s.contents) := by
  induction es generalizing s with
  | nil =>
    have hnone : s.AcceptsAll [] := ⟨by simp, .nil⟩
    exact ⟨[], s, rfl, hs, rfl, rfl, iff_of_true (by simp) hnone, by simp⟩
  | cons e rest ih =>
    rw [List.length_cons] at hroom
    have ha : (Operation.insert e).Allowed s := ⟨ht e List.mem_cons_self, by omega⟩
    obtain ⟨answer, u, hinsert, hu, hshape, hdesc, hinserted⟩ :=
      insert_spec hs ha.1 (hs.slab.hasRoom ha.2)
    have hsize := size_le_of_insert hs ha (t := u) (by rw [Operation.apply, hinsert]; rfl)
    obtain ⟨answers, t, hall, ht, hshape', hdesc', haccepts, hcontents⟩ :=
      ih hu (fun x hx => ht x (List.mem_cons_of_mem _ hx)) (by omega)
    refine ⟨answer :: answers, t, by simp [insertAll, hinsert, hall], ht, hshape'.trans hshape,
      hdesc'.trans hdesc, ?_, ?_⟩
    · rw [List.forall_mem_cons, haccepts]
      obtain ⟨h, rfl, he⟩ | ⟨err, rfl, hrefuses⟩ := insert_answer hs ha hinsert
      · obtain ⟨hfree, hsource⟩ := hinserted
        rw [acceptsAll_cons_iff hshape hdesc hfree hsource he]
        exact and_iff_right rfl
      · refine iff_of_false (fun hok => by cases hok.1) fun hbatch => ?_
        exact hrefuses.not_accepts (hbatch.each e List.mem_cons_self)
    · rw [List.forall_mem_cons]
      rintro ⟨hok, hrest⟩
      cases answer with
      | error err => cases hok
      | ok h =>
        obtain ⟨hfree, hsource⟩ := hinserted
        rw [hcontents hrest, contents_of_inserted hs hu hfree hsource, ← Multiset.cons_coe,
          Multiset.add_cons, Multiset.cons_add]

/-! ## Two orders of one batch -/

structure EmptyOf (shape : Shape) (layout : List Descriptor) (s : Store) : Prop where
  reachable : s.Reachable
  shape_eq : s.shape = shape
  layout_eq : s.descriptors = layout
  size_eq : s.size = 0

namespace EmptyOf

theorem of_create (hc : create shape layout = .ok s) : s.EmptyOf shape layout := by
  obtain ⟨_, hshape, hdesc, _⟩ := create_spec hc
  exact ⟨.created hc, hshape, hdesc, by rw [size, create_slab hc]; rfl⟩

variable (hs : s.EmptyOf shape layout)
include hs

theorem toList_eq : s.slab.toList = [] := by
  have hlength := Slab.length_handles hs.reachable.invariant.slab
  have hsize : s.slab.size = 0 := hs.size_eq
  rw [hsize, Slab.handles, List.length_map] at hlength
  exact List.eq_nil_of_length_eq_zero hlength

theorem contents_eq : s.contents = 0 := by
  rw [contents, hs.toList_eq]
  rfl

theorem source_eq : s.source = fun _ => none := by
  funext h
  refine Option.eq_none_iff_forall_ne_some.2 fun e he => ?_
  have hitem := (Slab.mem_toList_iff hs.reachable.invariant.slab).2 he
  rw [hs.toList_eq] at hitem
  cases hitem

theorem acceptsAll_iff (ht : t.EmptyOf shape layout) : t.AcceptsAll es ↔ s.AcceptsAll es :=
  acceptsAll_congr (ht.shape_eq.trans hs.shape_eq.symm) (ht.layout_eq.trans hs.layout_eq.symm)
    (ht.source_eq.trans hs.source_eq.symm)

end EmptyOf

/-- Two orders of one batch go into empty stores of one layout as a whole or neither does, and the
stores they lead to hold the batch and are alike. -/
theorem insertion_orders_agree {s' : Store} (hs : s.EmptyOf shape layout)
    (hs' : s'.EmptyOf shape layout) (hperm : es.Perm fs) (ht : ∀ e ∈ es, e.Typed)
    (hroom : es.length ≤ UInt32.size) : ∃ answers t answers' t',
      s.insertAll es = .ok (answers, t) ∧ s'.insertAll fs = .ok (answers', t') ∧
      ((∀ answer ∈ answers, answer.isOk = true) ↔ ∀ answer ∈ answers', answer.isOk = true) ∧
      ((∀ answer ∈ answers, answer.isOk = true) → t.contents = es ∧ t.AnswersAlike t') := by
  have htyped : ∀ e ∈ fs, e.Typed := fun e he => ht e (hperm.mem_iff.2 he)
  have hroom' : fs.length ≤ UInt32.size := hperm.length_eq ▸ hroom
  obtain ⟨answers, t, hall, hinv, hshape, hdesc, haccepts, hcontents⟩ :=
    insertAll_spec hs.reachable.invariant ht (by rw [hs.size_eq, Nat.zero_add]; exact hroom)
  obtain ⟨answers', t', hall', hinv', hshape', hdesc', haccepts', hcontents'⟩ :=
    insertAll_spec hs'.reachable.invariant htyped
      (by rw [hs'.size_eq, Nat.zero_add]; exact hroom')
  have hboth : (∀ answer ∈ answers, answer.isOk = true) ↔
      ∀ answer ∈ answers', answer.isOk = true := by
    rw [haccepts, haccepts', hs.acceptsAll_iff hs', acceptsAll_perm hperm]
  refine ⟨answers, t, answers', t', hall, hall', hboth, fun hok => ?_⟩
  have hbatch := hcontents hok
  have hbatch' := hcontents' (hboth.1 hok)
  rw [hs.contents_eq, add_zero] at hbatch
  rw [hs'.contents_eq, add_zero, ← Multiset.coe_eq_coe.2 hperm] at hbatch'
  refine ⟨hbatch, answersAlike hinv hinv' ?_ ?_ (hbatch'.trans hbatch.symm)⟩
  · rw [hshape', hshape, hs.shape_eq, hs'.shape_eq]
  · rw [hdesc', hdesc, hs.layout_eq, hs'.layout_eq]

def orderedLayout : List Descriptor :=
  [.ofForm (.tree [2] false), .ofForm (.hash [1] true), .ofForm (.heap .ascending [2] 1)]

def pairBatch : List Entry := [samplePair 1 30, samplePair 2 20, samplePair 3 30]

/-- Two entries of one key come in different orders. Their store lists them so and visits them so in
a slice, and the least of their group is the same. -/
theorem insertion_orders_agree_of_pairs : ∃ s answers t answers' t',
    EmptyOf ⟨[.int, .int]⟩ orderedLayout s ∧ pairBatch.Perm pairBatch.reverse ∧
    (∀ e ∈ pairBatch, e.Typed) ∧ pairBatch.length ≤ UInt32.size ∧
    s.insertAll pairBatch = .ok (answers, t) ∧ s.insertAll pairBatch.reverse = .ok (answers', t') ∧
    (∀ answer ∈ answers, answer.isOk = true) ∧ (∀ answer ∈ answers', answer.isOk = true) ∧
    t.AnswersAlike t' ∧ t.entries = [samplePair 2 20, samplePair 1 30, samplePair 3 30] ∧
    t'.entries = [samplePair 2 20, samplePair 3 30, samplePair 1 30] ∧
    t.slice 0 (samplePair 0 30) = .ok [(⟨0, 0⟩, samplePair 1 30), (⟨2, 0⟩, samplePair 3 30)] ∧
    t'.slice 0 (samplePair 0 30) = .ok [(⟨0, 0⟩, samplePair 3 30), (⟨2, 0⟩, samplePair 1 30)] ∧
    t.getHandle 2 (samplePair 0 30) = .ok (some ⟨0, 0⟩) ∧
    t'.getHandle 2 (samplePair 0 30) = .ok (some ⟨2, 0⟩) := by
  obtain ⟨s, hs⟩ : ∃ s, create ⟨[.int, .int]⟩ orderedLayout = .ok s := ⟨_, rfl⟩
  have hempty := EmptyOf.of_create hs
  have hperm : pairBatch.Perm pairBatch.reverse := pairBatch.reverse_perm.symm
  have htyped : ∀ e ∈ pairBatch, e.Typed := by decide
  have hroom : pairBatch.length ≤ UInt32.size := by decide
  obtain ⟨answers, t, answers', t', hall, hall', hboth, halike⟩ :=
    insertion_orders_agree hempty hempty hperm htyped hroom
  have hok : ∀ answer ∈ answers, answer.isOk = true := by
    obtain rfl := Except.ok.inj hs
    obtain ⟨rfl, -⟩ := Prod.mk.inj (Except.ok.inj hall)
    decide
  refine ⟨s, answers, t, answers', t', hempty, hperm, htyped, hroom, hall, hall', hok, hboth.1 hok,
    (halike hok).2, ?_⟩
  obtain rfl := Except.ok.inj hs
  obtain ⟨-, rfl⟩ := Prod.mk.inj (Except.ok.inj hall)
  obtain ⟨-, rfl⟩ := Prod.mk.inj (Except.ok.inj hall')
  decide +kernel

end Store
end IndexedStore
