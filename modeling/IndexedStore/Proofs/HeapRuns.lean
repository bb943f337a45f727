import IndexedStore.Proofs.HeapHistories
import IndexedStore.Proofs.IndexRuns

/-!
# Runs of group heaps

All groups share one table of places, which is patched item by item while a heap array changes.
After every run of additions, removals and clearances the groups stand in the buckets of their
hashes, each with items in heap order, and the table tells the places of the handles held and of no
others.
-/
namespace IndexedStore

namespace Arrivals

variable {placed : Arrivals} {shape : Shape}

/-- An action can come next, whatever its source: a handle is added that is not held, and removed
under the entry it was placed under, if it is held. -/
def Allows (shape : Shape) (placed : Arrivals) : Index.Action → Prop
  | .change _ c => placed.Ready shape [] c
  | .clear => True

def followAll (placed : Arrivals) (actions : List Index.Action) : Arrivals :=
  actions.foldl (fun placed a => placed.follow true a) placed

def AllowsAll (shape : Shape) : List Index.Action → Arrivals → Prop
  | [], _ => True
  | a :: rest, placed => placed.Allows shape a ∧ AllowsAll shape rest (placed.follow true a)

instance (a : Index.Action) : Decidable (placed.Allows shape a) :=
  match a with
  | .change _ c => inferInstanceAs (Decidable (placed.Ready shape [] c))
  | .clear => inferInstanceAs (Decidable True)

instance decidableAllowsAll : (actions : List Index.Action) → (placed : Arrivals) →
    Decidable (AllowsAll shape actions placed)
  | [], _ => inferInstanceAs (Decidable True)
  | a :: rest, placed =>
    have := decidableAllowsAll rest (placed.follow true a)
    inferInstanceAs (Decidable (placed.Allows shape a ∧ _))

end Arrivals

namespace GroupHeaps

variable {g : GroupHeaps} {placed : Arrivals} {shape : Shape} {a : Index.Action}

def act (g : GroupHeaps) : Index.Action → Checked GroupHeaps
  | .change _ c => do return (← g.change c).2
  | .clear => return g.clear

def actAll (g : GroupHeaps) (actions : List Index.Action) : Checked GroupHeaps :=
  actions.foldlM act g

/-- Group heaps that are as they should be when some handles are held. -/
structure Structured (placed : Arrivals) (g : GroupHeaps) : Prop where
  /-- No hash has two buckets. -/
  distinct : (g.buckets.map Prod.fst).Nodup
  occupied : ∀ row ∈ g.buckets, row.2 ≠ []
  /-- A group is in the bucket of its hash, and has items. -/
  hashed : ∀ row ∈ g.buckets, ∀ group ∈ row.2, group.key.hash = row.1 ∧ 0 < group.items.size
  apart : g.groups.Pairwise fun a b => Key.same a.key b.key = false
  inOrder : ∀ group ∈ g.groups, Heap.InOrder g.order group.items
  /-- The items are those of the handles held, each once. -/
  handles : g.handles.Perm placed.handles
  nodup : g.handles.Nodup
  /-- Each handle is in the group of its key, where the table says, under its target value. -/
  located : ∀ h e, (h, e) ∈ placed → ∃ group ∈ g.groups,
    Key.same (g.projection.keyOf e) group.key = true ∧
    ∃ (i : Nat) (hi : i < group.items.size), Heap.placeOf h g.places = some i ∧
      group.items[i].handle = h ∧ group.items[i].value.same (g.targetOf e) = true
  /-- The table has one place for each handle held. -/
  places : (g.places.map Prod.fst).Perm placed.handles

theorem structured_of_carries (hg : (Index.heap g).Carries shape placed) : g.Structured placed := by
  have hf : g.Filed placed.known := hg.filed
  have hperm : g.handles.Perm placed.handles := hg.perm
  constructor
  · exact OrderedTable.nodup_keys hf.ascending
  · exact hf.occupied
  · intro row hr group hm
    have hgroup : group ∈ g.groups := List.mem_flatMap.2 ⟨row, hr, hm⟩
    exact ⟨hf.hashed row hr group hm, (hf.kept group hgroup).occupied⟩
  · refine hf.apart.imp_of_mem fun ha hb hapart => eq_false_of_ne_true fun hsame => hapart ?_
    exact (Key.same_eq_true_iff ((hf.length_key ha).trans (hf.length_key hb).symm)).1 hsame
  · exact fun group hm => (hf.kept group hm).inOrder
  · exact hperm
  · exact hf.nodup
  · intro h e hm
    have hknown := (Arrivals.known_eq_some_iff hg.nodup).2 hm
    obtain ⟨group, i, hgroup, hplace, hi, hhandle⟩ :=
      hf.exists_place hknown (hg.mem_handles_iff.2 ⟨e, hm⟩)
    obtain ⟨hmem, level⟩ := (hf.keyed.group?_eq_some_iff Projection.length_keyOf).1 hgroup
    obtain ⟨x, hx, -, -, hvalue⟩ := (hf.kept group hmem).bears _ (Array.getElem_mem hi)
    obtain rfl : e = x := Option.some.inj (hknown.symm.trans (hhandle ▸ hx))
    exact ⟨group, hmem, Key.same_of_compare level, i, hi, hplace, hhandle,
      Value.same_eq_true_iff.2 hvalue⟩
  · exact hf.places_perm.trans hperm

theorem perform_heap (source : Source) (c : Change) :
    (Index.heap g).perform (.change source c) = (fun r => (r.1, .heap r.2)) <$> g.change c := by
  cases c with
  | add h e =>
    rw [Index.perform, Index.addInPlace, Index.add, change]
    · cases g.add h e <;> rfl
    · exact fun _ h => Index.noConfusion h
  | remove h e =>
    rw [Index.perform, Index.remove?, change]
    cases g.remove? h e with
    | error fault => rfl
    | ok after => cases after <;> rfl

/-- What is held does not depend on the answer and the source, since no addition is refused. -/
theorem follow_of_change {g' : GroupHeaps} {answer : Bool} {source other : Source} {c : Change}
    (hc : g.change c = .ok (answer, g')) :
    placed.follow answer (.change source c) = placed.follow true (.change other c) := by
  cases c with
  | add h e =>
    obtain ⟨after, -, hafter⟩ := Checked.bind_eq_ok.1 hc
    obtain ⟨rfl, -⟩ := Prod.mk.inj (Except.ok.inj hafter)
    rfl
  | remove h e => rfl

theorem exists_act (hg : (Index.heap g).Carries shape placed) (ha : placed.Allows shape a) :
    ∃ g', g.act a = .ok g' ∧ (Index.heap g').Carries shape (placed.follow true a) ∧
      empty g'.projection g'.target g'.order = empty g.projection g.target g.order := by
  cases a with
  | clear => exact ⟨g.clear, rfl, hg.clear, rfl⟩
  | change source c =>
    have hready : Index.Action.Ready shape placed (.change (fun _ => none) c) := by
      cases c with
      | add h e => exact ⟨nofun, ha.1, ha.2.2⟩
      | remove h e => exact ha
    obtain ⟨answer, j, hperform, -, hcarries, hblank⟩ := hg.perform hready
    rw [perform_heap, Checked.map_eq_ok] at hperform
    obtain ⟨⟨_, g'⟩, hchange, hout⟩ := hperform
    obtain ⟨rfl, rfl⟩ := Prod.mk.inj hout
    exact ⟨g', by rw [act, hchange]; rfl, follow_of_change hchange ▸ hcarries,
      Index.heap.inj hblank⟩

theorem exists_actAll {actions : List Index.Action} (hg : (Index.heap g).Carries shape placed)
    (ha : placed.AllowsAll shape actions) :
    ∃ g', g.actAll actions = .ok g' ∧ (Index.heap g').Carries shape (placed.followAll actions) ∧
      empty g'.projection g'.target g'.order = empty g.projection g.target g.order := by
  induction actions generalizing g placed with
  | nil => exact ⟨g, rfl, hg, rfl⟩
  | cons a rest ih =>
    obtain ⟨next, hnext, hcarries, hsame⟩ := exists_act hg ha.1
    obtain ⟨last, hlast, hcarries', hsame'⟩ := ih hcarries ha.2
    exact ⟨last, by rw [actAll, List.foldlM_cons, hnext]; exact hlast, hcarries',
      hsame'.trans hsame⟩

/-- Whatever was added to group heaps, removed from them and cleared away, they are as they should
be. -/
theorem actAll_structured {π : Projection} {target : Nat} {actions : List Index.Action}
    (hπ : π.Inside shape) (hpos : 0 < target) (hle : target ≤ shape.arity) (order : Direction)
    (ha : Arrivals.AllowsAll shape actions []) :
    ∃ g, (empty π target order).actAll actions = .ok g ∧ g.projection = π ∧ g.target = target ∧
      g.order = order ∧ g.Structured (Arrivals.followAll [] actions) := by
  have hempty : (Index.heap (empty π target order)).Carries shape [] :=
    .of_empty rfl ⟨hπ, hpos, hle⟩
  obtain ⟨g, hrun, hcarries, hsame⟩ := exists_actAll hempty ha
  obtain ⟨hprojection, htarget, horder, -⟩ := GroupHeaps.mk.inj hsame
  exact ⟨g, hrun, hprojection, htarget, horder, structured_of_carries hcarries⟩

/-- Two groups. The last item of the first moves up where one is removed from the middle; that
handle is then removed once more, under the key of the second group. -/
def sampleMoves : List Index.Action :=
  [.add ⟨0, 0⟩ (Store.samplePair 5 1), .add ⟨1, 0⟩ (Store.samplePair 5 9),
    .add ⟨2, 0⟩ (Store.samplePair 6 4), .add ⟨3, 0⟩ (Store.samplePair 5 2),
    .add ⟨4, 0⟩ (Store.samplePair 5 12), .add ⟨5, 0⟩ (Store.samplePair 5 10),
    .add ⟨6, 0⟩ (Store.samplePair 5 3), .remove ⟨4, 0⟩ (Store.samplePair 5 12),
    .remove ⟨4, 0⟩ (Store.samplePair 6 4)].map fun c => .change (fun _ => none) c

def sampleGroups : Projection := ⟨⟨[.int, .int]⟩, [0], .equality⟩

/-- The arrays and the places that are left: the last item was moved up to where one was missing. -/
theorem actAll_structured_of_moves :
    sampleGroups.Inside ⟨[.int, .int]⟩ ∧ 0 < 2 ∧ 2 ≤ Shape.arity ⟨[.int, .int]⟩ ∧
    Arrivals.AllowsAll ⟨[.int, .int]⟩ sampleMoves [] ∧
    ∃ g, (empty sampleGroups 2 .ascending).actAll sampleMoves = .ok g ∧
      g.projection = sampleGroups ∧ g.target = 2 ∧ g.order = .ascending ∧
      g.Structured (Arrivals.followAll [] sampleMoves) ∧
      g.groups = [⟨[.int 6], #[⟨.int 4, ⟨2, 0⟩⟩]⟩, ⟨[.int 5], #[⟨.int 1, ⟨0, 0⟩⟩, ⟨.int 3, ⟨6, 0⟩⟩,
        ⟨.int 2, ⟨3, 0⟩⟩, ⟨.int 9, ⟨1, 0⟩⟩, ⟨.int 10, ⟨5, 0⟩⟩]⟩] ∧
      g.places = [(⟨0, 0⟩, 0), (⟨1, 0⟩, 3), (⟨2, 0⟩, 0), (⟨3, 0⟩, 2), (⟨5, 0⟩, 4), (⟨6, 0⟩, 1)] := by
  have hoffsets : ∀ o ∈ [0], o < 2 := by decide
  have hinside : sampleGroups.Inside ⟨[.int, .int]⟩ := hoffsets
  have hle : 2 ≤ Shape.arity ⟨[.int, .int]⟩ := by decide
  have ha : Arrivals.AllowsAll ⟨[.int, .int]⟩ sampleMoves [] := by decide
  obtain ⟨g, hg, hprojection, htarget, horder, hstructured⟩ :=
    actAll_structured hinside (by decide) hle .ascending ha
  refine ⟨hinside, by decide, hle, ha, g, hg, hprojection, htarget, horder, hstructured, ?_⟩
  have hmem : g ∈ ((empty sampleGroups 2 .ascending).actAll sampleMoves).toOption := by rw [hg]; rfl
  clear hg hprojection htarget horder hstructured
  revert g
  decide +kernel

end GroupHeaps
end IndexedStore
