import IndexedStore.Proofs.Extrema
import IndexedStore.Proofs.Rollbacks
import IndexedStore.Proofs.SharedContents
import IndexedStore.Proofs.WildcardSlices

/-!
# Bystanders

A deletion takes one handle out of the indices, and an update moves one in them. Whatever a probe
visits beside it, it visits before and after, and in the same order where the index has one. An
index in which both versions of the entry have one place does not show the update at all.
-/
namespace IndexedStore

/-- Whether two lists are the same but for an item, wherever it stands in them. -/
def SameBut {α : Type} [DecidableEq α] (x : α) (items others : List α) : Prop :=
  items.filter (· ≠ x) = others.filter (· ≠ x)

namespace SameBut

variable {α : Type} [DecidableEq α] {x : α} {items others rest : List α}

theorem refl (x : α) (items : List α) : SameBut x items items := rfl

theorem trans (h : SameBut x items others) (h' : SameBut x others rest) :
    SameBut x items rest := Eq.trans h h'

theorem erase (x : α) (items : List α) : SameBut x items (items.erase x) := by
  rw [SameBut, ← List.erase_filter, List.erase_of_not_mem (by simp)]

theorem append (x : α) (items : List α) : SameBut x items (items ++ [x]) := by simp [SameBut]

theorem splice (h : SameBut x items others) (before after : List α) :
    SameBut x (before ++ items ++ after) (before ++ others ++ after) := by
  rw [SameBut] at h ⊢
  simp only [List.filter_append, h]

theorem filter {p q : α → Bool} (h : SameBut x items others) (hpq : ∀ y ≠ x, p y = q y) :
    SameBut x (items.filter p) (others.filter q) := by
  have hlate (p : α → Bool) (items : List α) :
      (items.filter p).filter (· ≠ x) = (items.filter (· ≠ x)).filter p := by
    simp only [List.filter_filter, Bool.and_comm]
  rw [SameBut, hlate, hlate, ← h]
  refine List.filter_congr fun y hy => hpq y ?_
  simpa using List.of_mem_filter hy

end SameBut

namespace OrderedTable

variable {κ α : Type}

theorem flatMap_filter (p : κ → Bool) (rows : List (κ × List α)) :
    (rows.filter fun row => p row.1).flatMap Prod.snd =
      rows.flatMap fun row => if p row.1 then row.2 else [] := by
  induction rows with
  | nil => rfl
  | cons row rows ih =>
    rw [List.filter_cons, List.flatMap_cons, ← ih]
    split <;> rfl

variable [DecidableEq α] {compare : κ → κ → Ordering} [Std.TransCmp compare] {key : κ}
  {rows : List (κ × List α)} {x : α} {items : List α}

/-- Rows with another list under one key hold the same but for an item if that list does. -/
theorem sameBut_putList {p : κ → Bool} (h : Ascending compare rows)
    (hp : ∀ k, compare key k = .eq → p k = p key)
    (hs : SameBut x (listAt compare key rows) items) :
    SameBut x ((rows.filter fun row => p row.1).flatMap Prod.snd)
      (((putList compare key items rows).filter fun row => p row.1).flatMap Prod.snd) := by
  obtain ⟨before, after, hold, hnew⟩ :=
    exists_flatMap_alter (g := fun k items => if p k then items else []) h key
      fun k level => by rw [hp k level]
  have hput := hnew fun _ => if items.isEmpty then none else some items
  rw [flatMap_filter, flatMap_filter, putList, hold, hput]
  refine SameBut.splice ?_ before after
  have hold : (find? compare key rows).elim [] (fun items => if p key then items else []) =
      if p key then listAt compare key rows else [] := by
    rw [listAt]
    cases find? compare key rows <;> simp
  have hnew : (if items.isEmpty then none else some items).elim []
      (fun items => if p key then items else []) = if p key then items else [] := by
    by_cases hi : items.isEmpty <;> simp_all
  rw [hold, hnew]
  split
  · exact hs
  · exact .refl x []

end OrderedTable

namespace AddressGrid

variable {g g' : AddressGrid} {source : Source} {h : Handle} {address : Nat}
  {f : Option Handle → Option Handle}

theorem Filed.sameBut_alter (hf : g.Filed source)
    (ho : g'.occupied = OrderedTable.alter Ord.compare address f g.occupied)
    (hs : SameBut h (g.holder? address).toList (f (g.holder? address)).toList) :
    SameBut h g.handles g'.handles ∧
      ∀ a, SameBut h (g.holder? a).toList (g'.holder? a).toList := by
  have hlist (content : Option Handle) : content.elim [] (fun h => [h]) = content.toList := by
    cases content <;> rfl
  constructor
  · obtain ⟨before, after, hold, hnew⟩ :=
      OrderedTable.exists_flatMap_alter (g := fun _ h => [h]) hf.ascending address fun _ _ => rfl
    rw [handles_eq_flatMap, handles_eq_flatMap, ho, hold, hnew, hlist, hlist]
    exact SameBut.splice hs before after
  · intro a
    rw [holder?, holder?, ho, OrderedTable.find?_alter hf.ascending]
    split
    next level =>
      rw [OrderedTable.find?_congr level]
      exact hs
    next => exact .refl h _

end AddressGrid

namespace Index

variable {i j : Index} {source after : Source} {shape : Shape} {h : Handle} {e old new probe : Entry}

/-- Whether an index has an order for the handles that a probe visits. -/
def Steady (probe : Entry) : Index → Prop
  | .hash c => (c.projection.keyOf probe).isPartial = false
  | .heap _ => False
  | .list _ | .tree _ | .array _ => True

theorem Steady.congr (hi : i.Steady probe) (hb : j.blank = i.blank) : j.Steady probe := by
  have hblank (i : Index) : i.blank.Steady probe ↔ i.Steady probe := by cases i <;> rfl
  exact (hblank j).1 (hb ▸ (hblank i).2 hi)

theorem sameBut_of_eqOff (hs : ∀ k ≠ h, after k = source k) :
    SameBut h (i.hits source probe) (i.hits after probe) := by
  have hmeets (π : Projection) : ∀ k ≠ h, π.meets source probe k = π.meets after probe k :=
    fun k hk => by rw [Projection.meets, Projection.meets, hs k hk]
  cases i with
  | list l => exact (SameBut.refl h _).filter (hmeets _)
  | hash c =>
    rw [hits, hits]
    split
    · exact (SameBut.refl h _).filter (hmeets _)
    · exact (SameBut.refl h _).filter (hmeets _)
  | array g =>
    rw [hits, hits]
    split
    · exact (SameBut.refl h _).filter (hmeets _)
    · exact .refl h _
  | tree | heap => exact .refl h _

section Steps

theorem sameBut_of_tree {r r' : KeyRows} {key : Key} {items : List Handle} (hf : r.Filed source)
    (hproj : r'.projection = r.projection)
    (hrows : r'.rows = OrderedTable.putList Key.compare key items r.rows)
    (hs : SameBut h (r.row key) items) :
    SameBut h ((tree r).hits source probe) ((tree r').hits source probe) := by
  rw [hits, hits, hproj, hrows]
  exact OrderedTable.sameBut_putList hf.ascending
    (fun k level => (Key.selects_congr level _).symm) hs

theorem sameBut_of_array {g g' : AddressGrid} {address : Nat} {f : Option Handle → Option Handle}
    (hf : g.Filed source) (hproj : g'.projection = g.projection) (haxes : g'.axes = g.axes)
    (ho : g'.occupied = OrderedTable.alter Ord.compare address f g.occupied)
    (hs : SameBut h (g.holder? address).toList (f (g.holder? address)).toList) :
    SameBut h ((array g).hits source probe) ((array g').hits source probe) := by
  obtain ⟨hhandles, hholder⟩ := hf.sameBut_alter ho hs
  rw [hits, hits, hproj, AddressGrid.addressOf_of_axes haxes]
  split
  · exact hhandles.filter fun _ _ => rfl
  · cases g.addressOf (g.projection.keyOf probe) with
    | none => exact .refl h []
    | some a => exact hholder a

theorem sameBut_of_hash {c c' : HashChains} (hproj : c'.projection = c.projection)
    (hsteady : (hash c).Steady probe)
    (hs : SameBut h ((hash c).shelf probe) ((hash c').shelf probe)) :
    SameBut h ((hash c).hits source probe) ((hash c').hits source probe) := by
  have hfull : (c.projection.keyOf probe).isPartial = false := hsteady
  rw [hits, hits, hproj, hfull, if_neg Bool.false_ne_true, if_neg Bool.false_ne_true]
  rw [shelf, shelf, hproj] at hs
  exact hs.filter fun _ _ => rfl

variable (hr : i.Reads shape) (he : e.Conforms shape) (hsteady : i.Steady probe)
include hr he hsteady

/-- A removal closes the gap and moves nothing else. -/
theorem sameBut_of_remove (hi : i.Sound source) (hh : source h = some e)
    (hremove : i.remove h e = .ok j) :
    SameBut h (i.hits source probe) (j.hits source probe) := by
  have hshelf := shelf_of_remove hi hr he hh hremove probe
  cases hi.removed hr he hh hremove with
  | @list l => exact (SameBut.erase h l.handles).filter fun _ _ => rfl
  | hash => exact sameBut_of_hash rfl hsteady (hshelf ▸ .erase h _)
  | tree => exact sameBut_of_tree hi.filed rfl rfl (.erase h _)
  | array hholder =>
    refine sameBut_of_array hi.filed rfl rfl rfl ?_
    rw [hholder]
    simp [SameBut]
  | heap => cases hsteady

theorem sameBut_of_add (hi : i.Sound source) (hh : source h = none)
    (hadd : i.add after h e = .ok (.ok j)) :
    SameBut h (i.hits source probe) (j.hits source probe) := by
  have hshelf := shelf_of_add hi hr hh he hadd probe
  cases hi.added hr hh he hadd with
  | @list l => exact (SameBut.append h l.handles).filter fun _ _ => rfl
  | hash =>
    refine sameBut_of_hash rfl hsteady ?_
    rw [hshelf]
    split
    · exact .append h _
    · exact .refl h _
  | tree => exact sameBut_of_tree hi.filed rfl KeyRows.push_rows (.append h _)
  | array _ hfree =>
    refine sameBut_of_array hi.filed rfl rfl rfl ?_
    rw [hfree]
    simp [SameBut]
  | heap => cases hsteady

end Steps

section Changes

variable (hi : i.Sound source) (hr : i.Reads shape) (hs : source.Conforms shape)
include hi hr hs

/-- A move of a handle from one place to another moves nothing else. -/
theorem sameBut_of_move {lifted : Index} (hh : source h = some old) (hn : new.Conforms shape)
    (hsteady : i.Steady probe) (hlift : i.remove h old = .ok lifted)
    (hadd : lifted.add after h new = .ok (.ok j)) :
    SameBut h (i.hits source probe) (j.hits source probe) := by
  obtain ⟨_, hlift', hsound, hb⟩ := hi.remove hr (hs hh) hh
  obtain rfl := Except.ok.inj (hlift.symm.trans hlift')
  have hoff : ∀ k ≠ h, Function.update source h none k = source k := fun k hk =>
    Function.update_of_ne hk _ _
  have hgone := sameBut_of_remove hr (hs hh) hsteady hi hh hlift
  have hback := sameBut_of_add (hr.congr hb) hn (hsteady.congr hb) hsound
    (Function.update_self _ _ _) hadd
  exact hgone.trans ((sameBut_of_eqOff hoff).trans (hback.trans
    (sameBut_of_eqOff fun k hk => (hoff k hk).symm)))

/-- Sound indices of one description visit the same handles but for one, if only its entry differs. -/
theorem hits_off_perm (hj : j.Sound after) (hb : j.blank = i.blank) (ha : after.Conforms shape)
    (hp : probe.Conforms shape) (hoff : ∀ k ≠ h, after k = source k) :
    ((i.hits source probe).filter (· ≠ h)).Perm ((j.hits after probe).filter (· ≠ h)) := by
  refine (List.perm_ext_iff_of_nodup ((hi.nodup_hits probe).filter _)
    ((hj.nodup_hits probe).filter _)).2 fun k => ?_
  simp only [List.mem_filter, decide_eq_true_eq]
  exact and_congr_left fun hk => (mem_hits_congr hi hj hb hr hs ha hp (hoff k hk)).symm

end Changes

theorem hits_update (hh : source h = some old)
    (level : Key.compare (i.projection.keyOf old) (i.projection.keyOf new) = .eq) :
    i.hits (Function.update source h (some new)) probe = i.hits source probe := by
  have hmeets : i.projection.meets (Function.update source h (some new)) probe =
      i.projection.meets source probe := by
    funext k
    by_cases hk : k = h
    · rw [Projection.meets, Projection.meets, hk, Function.update_self, hh, Option.any_some,
        Option.any_some, Key.agrees_eq level]
    · rw [Projection.meets, Projection.meets, Function.update_of_ne hk]
  cases i with
  | list l => exact congrArg (l.handles.filter ·) hmeets
  | hash c =>
    have hmeets : c.projection.meets _ probe = c.projection.meets source probe := hmeets
    rw [hits, hits, hmeets]
  | array g =>
    have hmeets : g.projection.meets _ probe = g.projection.meets source probe := hmeets
    rw [hits, hits, hmeets]
  | tree | heap => rfl

end Index

namespace Declared.Stands

variable {shape : Shape} {d : Declared} {old new probe : Entry} (hd : d.Stands shape)
include hd

/-- An index has an order for a probe unless it is a heap, or a hash index and the probe is open. -/
theorem steady (hheap : d.descriptor.kind.isHeap = false)
    (hhash : d.descriptor.kind = .hash → probe.IsSet (d.descriptor.keyFields shape)) :
    d.index.Steady probe := by
  have hkind := hd.describes.1
  have hfull := fun hk => hd.isPartial_eq_false_iff.2 (hhash hk)
  rw [← hkind] at hheap hfull
  cases hi : d.index with
  | hash c =>
    rw [hi] at hfull
    exact hfull rfl
  | heap g =>
    rw [hi] at hheap
    cases hheap
  | list | tree | array => trivial

theorem moves_eq_false (level : old.Level (d.descriptor.keyFields shape) new)
    (htarget : ∀ target ∈ d.descriptor.target?,
      (old.field target).compare (new.field target) = .eq) : d.index.moves old new = false := by
  have hsame := Projection.same_keyOf_iff.2 (hd.compare_keyOf_iff.2 level)
  have hkind := hd.describes.1
  cases hi : d.index with
  | list l => rfl
  | heap g =>
    obtain ⟨order, group, target, hform⟩ : ∃ order group target,
        d.descriptor.form = .heap order group target := by
      rw [hi, Descriptor.kind] at hkind
      cases hform : d.descriptor.form with
      | heap order group target => exact ⟨order, group, target, rfl⟩
      | list | hash | tree | array =>
        rw [hform] at hkind
        cases hkind
    obtain ⟨g', hg', _, rfl, _⟩ := Store.heap_of_form hd hform
    obtain rfl : g = g' := Index.heap.inj (hi.symm.trans hg')
    have htarget := htarget g.target (by rw [Descriptor.target?, hform]; rfl)
    rw [hi] at hsame
    simp only [Index.moves, Bool.or_eq_false_iff, Bool.not_eq_false']
    exact ⟨hsame, Value.same_eq_true_iff.2 htarget⟩
  | hash | tree | array =>
    rw [hi] at hsame
    simp only [Index.moves, Bool.not_eq_false']
    exact hsame

end Declared.Stands

namespace Store

variable {s t : Store} {h : Handle} {old new probe : Entry} {d d' : Declared} {slot : Nat}

/-- After a change of what is behind a handle, every probe visits the same handles beside it, and in
the same order if the index has one for the probe. -/
def Spares (s t : Store) (h : Handle) : Prop :=
  ∀ slot d, s.descriptors[slot]? = some d → ∀ probe : Entry, probe.Conforms s.shape →
    ∃ before after, s.slice slot probe = .ok before ∧ t.slice slot probe = .ok after ∧
      ((before.map Prod.fst).filter (· ≠ h)).Perm ((after.map Prod.fst).filter (· ≠ h)) ∧
      (d.kind.isHeap = false → (d.kind = .hash → probe.IsSet (d.keyFields s.shape)) →
        (before.map Prod.fst).filter (· ≠ h) = (after.map Prod.fst).filter (· ≠ h))

/-- A change of the entry behind a handle does not show in an index if both versions have the same
key there, and the same target. -/
def Overlooks (s t : Store) (h : Handle) : Prop :=
  ∀ slot d old new, s.descriptors[slot]? = some d → s.entry? h = some old →
    t.entry? h = some new → old.Level (d.keyFields s.shape) new →
    (∀ target ∈ d.target?, (old.field target).compare (new.field target) = .eq) →
    ∀ probe : Entry, probe.Conforms s.shape → ∃ before after, s.slice slot probe = .ok before ∧
      t.slice slot probe = .ok after ∧ before.map Prod.fst = after.map Prod.fst

theorem exists_declared {e : Descriptor} (hd : s.descriptors[slot]? = some e) :
    ∃ d, s.indices[slot]? = some d ∧ d.descriptor = e := by
  simpa [descriptors] using hd

section Slots

variable (hs : s.Invariant) (ht : t.Invariant) (hshape : t.shape = s.shape)
  (hoff : ∀ k ≠ h, t.source k = s.source k)
include hs ht hshape hoff

theorem spares_of_sameBut (hall : List.Forall₂ (fun d d' => d'.descriptor = d.descriptor ∧
      ∀ probe, d.index.Steady probe →
        SameBut h (d.index.hits s.source probe) (d'.index.hits s.source probe))
      s.indices t.indices) : s.Spares t h := by
  have hdesc : t.descriptors = s.descriptors :=
    Checked.map_eq_of_forall₂ hall fun d d' hd => hd.1
  intro slot e he probe hp
  obtain ⟨d, hd, rfl⟩ := exists_declared he
  obtain ⟨d', hd', -, hsame⟩ := Checked.exists_getElem?_right hall hd
  obtain ⟨_, hfound, hb⟩ := exists_index hs ht hshape hdesc hd
  obtain rfl := Option.some.inj (hd'.symm.trans hfound)
  have hmem := List.mem_of_getElem? hd
  obtain ⟨before, hbefore, hhits, _⟩ := exists_slice_handles hs hp hd
  obtain ⟨after, hafter, hhits', _⟩ := exists_slice_handles ht (hshape ▸ hp) hd'
  refine ⟨before, after, hbefore, hafter, ?_, fun hheap hhash => ?_⟩
  · rw [hhits, hhits']
    exact Index.hits_off_perm (hs.sound d hmem) (hs.stands d hmem).reads hs.conforms
      (ht.sound d' (List.mem_of_getElem? hd')) hb (hshape ▸ ht.conforms) hp hoff
  · rw [hhits, hhits']
    exact (hsame probe ((hs.stands d hmem).steady hheap hhash)).trans
      (Index.sameBut_of_eqOff hoff)

end Slots

theorem Spares.refl (hs : s.Invariant) (h : Handle) : s.Spares s h :=
  spares_of_sameBut hs hs rfl (fun _ _ => rfl)
    (List.forall₂_same.2 fun _ _ => ⟨rfl, fun _ _ => .refl h _⟩)

theorem delete_spares (hs : s.Invariant) (h : Handle) :
    ∃ removed t, s.delete h = .ok (removed, t) ∧ s.Spares t h := by
  obtain ⟨t, hdelete, hkeeps, _, hsource⟩ := delete_spec hs h
  refine ⟨_, t, hdelete, ?_⟩
  cases hh : s.source h with
  | none =>
    have hentry : s.entry? h = none := hh
    obtain ⟨-, rfl⟩ : none = s.source h ∧ s = t := by
      rw [delete, hentry] at hdelete
      simpa using hdelete
    exact .refl hs h
  | some e =>
    obtain ⟨indices, slab, hdelete', hall, _⟩ := delete_live hs hh
    obtain ⟨-, rfl⟩ : s.source h = some e ∧ t = { s with indices, slab } := by
      simpa using hdelete.symm.trans hdelete'
    have hlive : List.Forall₂ (fun d d' => d ∈ s.indices ∧ _) s.indices indices :=
      (List.forall₂_and_left _ _).2 ⟨fun _ hd => hd, hall⟩
    refine spares_of_sameBut hs hkeeps.invariant rfl (fun k hk => ?_) (hlive.imp ?_)
    · rw [hsource, Function.update_of_ne hk]
    · rintro d d' ⟨hd, hdesc, hremove⟩
      exact ⟨hdesc, fun probe hsteady => Index.sameBut_of_remove (hs.stands d hd).reads
        (hs.conforms hh) hsteady (hs.sound d hd) hh hremove⟩

section Updates

variable {ρ : Type} {mutate : Entry → Checked (Entry × ρ)} {answer : Option ρ}

theorem moved_of_update (hupdate : s.update h mutate = .ok (.ok answer, t)) :
    s.source h = none ∧ s = t ∨ ∃ old new result, s.source h = some old ∧
      mutate old = .ok (new, result) ∧ new.shape = s.shape ∧ s.move h old new = .ok (none, t) := by
  rw [update] at hupdate
  split at hupdate
  next habsent => exact .inl ⟨habsent, (Prod.mk.inj (Except.ok.inj hupdate)).2⟩
  next old hlive =>
    obtain ⟨⟨new, result⟩, hnew, hupdate⟩ := Checked.bind_eq_ok.1 hupdate
    dsimp only at hupdate
    split at hupdate
    next => cases hupdate
    next hshape =>
      obtain ⟨⟨refusal, moved⟩, hmove, hupdate⟩ := Checked.bind_eq_ok.1 hupdate
      cases refusal with
      | some err => cases hupdate
      | none =>
        obtain ⟨-, rfl⟩ := Prod.mk.inj (Except.ok.inj hupdate)
        exact .inr ⟨old, new, result, hlive, hnew, by simpa using hshape, hmove⟩

section Moves

variable (hs : s.Invariant) (hh : s.source h = some old) (hn : new.Conforms s.shape)
include hs hh hn

/-- An index that let a handle go and took it under another entry has all others where they were, and
is unchanged if the entry keeps its place. -/
theorem sameBut_of_took {m : Bool × Declared} (hd : d ∈ s.indices)
    (hl : Lost h old (d.index.moves old new, d) m)
    (ht : Took (Function.update s.source h (some new)) h new m d') :
    d'.descriptor = d.descriptor ∧
      (d.index.moves old new = false → d'.index = d.index) ∧
      ∀ probe, d.index.Steady probe →
        SameBut h (d.index.hits s.source probe) (d'.index.hits s.source probe) := by
  obtain ⟨hmark, hdesc, hlost⟩ := hl
  obtain ⟨hdesc', htook⟩ := ht
  dsimp only at hmark hdesc hlost
  rw [hmark] at htook
  refine ⟨hdesc'.trans hdesc, ?_⟩
  cases hmoves : d.index.moves old new with
  | true =>
    rw [hmoves, if_pos rfl] at hlost htook
    exact ⟨Bool.noConfusion, fun probe hsteady => Index.sameBut_of_move (hs.sound d hd)
      (hs.stands d hd).reads hs.conforms hh hn hsteady hlost htook⟩
  | false =>
    rw [hmoves, if_neg Bool.false_ne_true] at hlost htook
    have hsame : d'.index = d.index := htook.trans hlost
    exact ⟨fun _ => hsame, fun probe _ => hsame ▸ .refl h _⟩

/-- A move of an entry spares the other handles, and does not show where its key stays. -/
theorem move_spares (hmove : s.move h old new = .ok (none, t)) :
    s.Spares t h ∧ s.Overlooks t h := by
  obtain ⟨refusal, t', hmove', ht, hshape, hdesc, hmoved⟩ := move_spec hs hh hn
  obtain ⟨rfl, rfl⟩ : none = refusal ∧ t = t' := by simpa using hmove.symm.trans hmove'
  have hsource : t.source = Function.update s.source h (some new) := hmoved
  obtain ⟨_, hmove', hcase⟩ := exists_movement hs hh hn
  obtain rfl := Except.ok.inj (hmove.symm.trans hmove')
  have hall : List.Forall₂ (fun d d' => d'.descriptor = d.descriptor ∧
      (d.index.moves old new = false → d'.index = d.index) ∧ ∀ probe, d.index.Steady probe →
        SameBut h (d.index.hits s.source probe) (d'.index.hits s.source probe))
      s.indices t.indices := by
    cases hcase with
    | taken hall => exact hall.imp fun d d' ⟨m, ⟨hd, hl⟩, htook⟩ => sameBut_of_took hs hh hn hd hl htook
  refine ⟨spares_of_sameBut hs ht hshape (fun k hk => ?_)
    (hall.imp fun _ _ hd => ⟨hd.1, hd.2.2⟩), ?_⟩
  · rw [hsource, Function.update_of_ne hk]
  · intro slot e old' new' he hold hnew level htarget probe hp
    obtain rfl := Option.some.inj (hh.symm.trans hold)
    have hnew : t.source h = some new' := hnew
    rw [hsource, Function.update_self, Option.some.injEq] at hnew
    subst hnew
    obtain ⟨d, hd, rfl⟩ := exists_declared he
    obtain ⟨d', hd', -, hsame, -⟩ := Checked.exists_getElem?_right hall hd
    have hstands := hs.stands d (List.mem_of_getElem? hd)
    obtain ⟨before, hbefore, hhits, _⟩ := exists_slice_handles hs hp hd
    obtain ⟨after, hafter, hhits', _⟩ := exists_slice_handles ht (hshape ▸ hp) hd'
    refine ⟨before, after, hbefore, hafter, ?_⟩
    rw [hhits, hhits', hsame (hstands.moves_eq_false level htarget), hsource,
      Index.hits_update hh (hstands.compare_keyOf_iff.2 level)]

end Moves

end Updates

/-- In every store that a run leads to, a deletion and an update spare all other handles, and an
update does not show in an index where neither the key nor the target changes. -/
theorem bystanders_spared (hr : s.Reachable) (h : Handle) :
    (∃ removed t, s.delete h = .ok (removed, t) ∧ s.Spares t h) ∧
    ∀ {ρ : Type} (mutate : Entry → Checked (Entry × ρ)), KeepsTypes mutate → ∀ answer t,
      s.update h mutate = .ok (.ok answer, t) → s.Spares t h ∧ s.Overlooks t h := by
  have hs := hr.invariant
  refine ⟨delete_spares hs h, fun mutate hm answer t hupdate => ?_⟩
  obtain ⟨habsent, rfl⟩ | ⟨old, new, result, hh, hnew, hshape, hmove⟩ := moved_of_update hupdate
  · refine ⟨.refl hs h, fun slot e old new he hold => ?_⟩
    cases habsent.symm.trans hold
  · exact move_spares hs hh ⟨hm old new result (hs.conforms hh).typed hnew, hshape⟩ hmove

def openMove : Entry → Checked (Entry × List (Option Error)) := Edit.applyAll [.set 1 (.int 2)]

/-- A pair that joins another one under its key comes last there; the last open pair goes, so that
probes seek again. -/
theorem bystanders_spared_of_open_pair : ∃ s t u, Reachable s ∧
    s.delete ⟨2, 0⟩ = .ok (some (sampleOpen 1), t) ∧ s.Spares t ⟨2, 0⟩ ∧
    KeepsTypes openMove ∧ s.update ⟨0, 0⟩ openMove = .ok (.ok (some [none]), u) ∧
    s.Spares u ⟨0, 0⟩ ∧ s.Overlooks u ⟨0, 0⟩ ∧
    s.slice 1 (.blank ⟨[.int, .int]⟩) =
      .ok [(⟨2, 0⟩, sampleOpen 1), (⟨0, 0⟩, samplePair 1 10), (⟨1, 0⟩, samplePair 2 10)] ∧
    t.slice 1 (.blank ⟨[.int, .int]⟩) =
      .ok [(⟨0, 0⟩, samplePair 1 10), (⟨1, 0⟩, samplePair 2 10)] ∧
    u.slice 1 (.blank ⟨[.int, .int]⟩) =
      .ok [(⟨2, 0⟩, sampleOpen 1), (⟨1, 0⟩, samplePair 2 10), (⟨0, 0⟩, samplePair 2 10)] := by
  obtain ⟨fresh, hfresh⟩ : ∃ s, create ⟨[.int, .int]⟩ openLayout = .ok s := ⟨_, rfl⟩
  obtain ⟨s, hs⟩ : ∃ t, run (openPairs.map .insert) fresh = .ok t := by
    obtain rfl := Except.ok.inj hfresh
    exact ⟨_, rfl⟩
  have hr : Reachable s := .filled hfresh (by decide) (by decide) hs
  have hm : KeepsTypes openMove := keepsTypes_applyAll (by simp [Edit.Brings])
  have hfacts : ∃ t u, s.delete ⟨2, 0⟩ = .ok (some (sampleOpen 1), t) ∧
      s.update ⟨0, 0⟩ openMove = .ok (.ok (some [none]), u) ∧
      s.slice 1 (.blank ⟨[.int, .int]⟩) =
        .ok [(⟨2, 0⟩, sampleOpen 1), (⟨0, 0⟩, samplePair 1 10), (⟨1, 0⟩, samplePair 2 10)] ∧
      t.slice 1 (.blank ⟨[.int, .int]⟩) =
        .ok [(⟨0, 0⟩, samplePair 1 10), (⟨1, 0⟩, samplePair 2 10)] ∧
      u.slice 1 (.blank ⟨[.int, .int]⟩) =
        .ok [(⟨2, 0⟩, sampleOpen 1), (⟨1, 0⟩, samplePair 2 10), (⟨0, 0⟩, samplePair 2 10)] := by
    obtain rfl := Except.ok.inj hfresh
    obtain rfl := Except.ok.inj hs
    exact ⟨_, _, rfl, rfl, by decide +kernel, by decide +kernel, by decide +kernel⟩
  obtain ⟨t, u, hdelete, hupdate, hbefore, hdeleted, hupdated⟩ := hfacts
  obtain ⟨_, hupdates⟩ := bystanders_spared hr ⟨0, 0⟩
  obtain ⟨⟨_, _, hdelete', hspares⟩, _⟩ := bystanders_spared hr ⟨2, 0⟩
  obtain ⟨-, rfl⟩ := Prod.mk.inj (Except.ok.inj (hdelete'.symm.trans hdelete))
  obtain ⟨hothers, hoverlooks⟩ := hupdates _ hm _ _ hupdate
  exact ⟨s, _, u, hr, hdelete, hspares, hm, hupdate, hothers, hoverlooks, hbefore, hdeleted,
    hupdated⟩

end Store
end IndexedStore
