import Mathlib.Logic.Function.Basic
import IndexedStore.Index.Basic
import IndexedStore.Proofs.AddressGrids
import IndexedStore.Proofs.GroupHeaps
import IndexedStore.Proofs.HashChains
import IndexedStore.Proofs.KeyWalks
import IndexedStore.Proofs.ScanLists

/-!
# Sound indices

An index is sound for a source if it holds exactly the handles of the source, each once and under
the key of its entry, and takes every one of these entries beside all others. Addition, removal and
a change of entry that leaves the place alone keep an index sound, each for the source after it.
-/
namespace IndexedStore.Index

variable {i j : Index} {source after : Source} {shape : Shape} {h : Handle} {e : Entry}

def blank : Index → Index
  | .list i => .list (.empty i.projection)
  | .hash i => .hash (.empty i.projection i.unique)
  | .tree i => .tree (.empty i.projection i.unique)
  | .array i => .array (.empty i.projection i.axes)
  | .heap i => .heap (.empty i.projection i.target i.order)

/-- What the form of an index needs of a shape: an axis for every key field, a target inside. -/
def ReadsForm (shape : Shape) : Index → Prop
  | .array g => g.axes.length = g.projection.width
  | .heap g => 0 < g.target ∧ g.target ≤ shape.arity
  | _ => True

structure Reads (shape : Shape) (i : Index) : Prop where
  inside : i.projection.Inside shape
  form : i.ReadsForm shape

/-- Every handle in an index stands under the key of its entry. -/
def Filed (source : Source) : Index → Prop
  | .list i => i.Filed source
  | .hash i => i.Filed source
  | .tree i => i.Filed source
  | .array i => i.Filed source
  | .heap i => i.Filed source

def InBounds (e : Entry) : Index → Prop
  | .array g => ∃ address, g.addressOf (g.projection.keyOf e) = some address
  | _ => True

/-- An index takes an entry beside all entries that a source has behind other handles. -/
structure Admits (i : Index) (source : Source) (h : Handle) (e : Entry) : Prop where
  inBounds : i.InBounds e
  unrivalled : i.isUnique = true → ∀ k ≠ h, ∀ other, source k = some other →
    Key.compare (i.projection.keyOf e) (i.projection.keyOf other) ≠ .eq

/-- An index holds exactly the handles of a source, each once and where it belongs. -/
structure Sound (source : Source) (i : Index) : Prop where
  filed : i.Filed source
  nodup : i.handles.Nodup
  complete : ∀ h, h ∈ i.handles ↔ (source h).isSome
  admitted : ∀ h e, source h = some e → i.Admits source h e

theorem Reads.fits (hr : i.Reads shape) (he : e.Conforms shape) : i.projection.Fits e :=
  hr.inside.fits he

theorem Reads.heap {g : GroupHeaps} (hr : (Index.heap g).Reads shape) (he : e.Conforms shape) :
    g.Reads e where
  fits := hr.fits he
  pos := hr.form.1
  le := by
    rw [he.length]
    exact hr.form.2

/-! ## Descriptions -/

theorem projection_blank : i.blank.projection = i.projection := by cases i <;> rfl

theorem isUnique_blank : i.blank.isUnique = i.isUnique := by cases i <;> rfl

theorem inBounds_blank : i.blank.InBounds e ↔ i.InBounds e := by cases i <;> rfl

theorem kind_blank : i.blank.kind = i.kind := by cases i <;> rfl

theorem projection_of_blank (hb : j.blank = i.blank) : j.projection = i.projection := by
  rw [← projection_blank, hb, projection_blank]

theorem isUnique_of_blank (hb : j.blank = i.blank) : j.isUnique = i.isUnique := by
  rw [← isUnique_blank, hb, isUnique_blank]

theorem Reads.congr (hr : i.Reads shape) (hb : j.blank = i.blank) : j.Reads shape := by
  have hform (i : Index) : i.blank.ReadsForm shape ↔ i.ReadsForm shape := by cases i <;> rfl
  refine ⟨?_, (hform j).1 (hb ▸ (hform i).2 hr.form)⟩
  rw [projection_of_blank hb]
  exact hr.inside

theorem Admits.congr (ha : i.Admits source h e) (hb : j.blank = i.blank)
    (hs : ∀ k ≠ h, after k = source k) : j.Admits after h e := by
  refine ⟨inBounds_blank.1 (hb ▸ inBounds_blank.2 ha.inBounds), ?_⟩
  intro hu k hk other ho
  rw [projection_of_blank hb]
  exact ha.unrivalled (isUnique_of_blank hb ▸ hu) k hk other (hs k hk ▸ ho)

theorem admits_of_not_unique (hu : i.isUnique = false) : i.Admits source h e := by
  refine ⟨?_, fun hunique => by simp [hu] at hunique⟩
  cases i with
  | array g => cases hu
  | list | hash | tree | heap => trivial

theorem Admits.of_level {other : Entry} (ha : i.Admits source h e)
    (level : Key.compare (i.projection.keyOf e) (i.projection.keyOf other) = .eq) :
    i.Admits source h other := by
  refine ⟨?_, fun hu k hk stored hs he => ?_⟩
  · have hin := ha.inBounds
    cases i with
    | array g =>
      obtain ⟨address, haddress⟩ := hin
      exact ⟨address, (AddressGrid.addressOf_congr level).symm.trans haddress⟩
    | list | hash | tree | heap => trivial
  · exact ha.unrivalled hu k hk stored hs (Std.TransCmp.eq_trans level he)

/-! ## Changes of the source -/

/-- Handles stay where they are while the source answers the same for them. -/
theorem Filed.of_eqOn (hf : i.Filed source) (hs : ∀ k ∈ i.handles, after k = source k) :
    i.Filed after := by
  cases i with
  | list l =>
    exact ScanList.Filed.congr hf fun k hk => by
      rw [hs k hk]
      exact ScanList.Filed.keyed hf k hk
  | hash c =>
    refine HashChains.Filed.congr hf fun k hk e he => ?_
    obtain ⟨e', he', hfit⟩ := HashChains.Filed.exists_entry hf hk
    obtain rfl := Option.some.inj (he.symm.trans he')
    exact ⟨e, (hs k hk).trans he, hfit, Std.ReflCmp.compare_self⟩
  | tree r =>
    refine KeyRows.Filed.congr hf fun k hk e he => ?_
    obtain ⟨e', he', hfit⟩ := KeyRows.Filed.exists_entry hf hk
    obtain rfl := Option.some.inj (he.symm.trans he')
    exact ⟨e, (hs k hk).trans he, hfit, Std.ReflCmp.compare_self⟩
  | array g =>
    refine AddressGrid.Filed.congr hf fun k hk e he => ?_
    obtain ⟨e', he', hfit⟩ := AddressGrid.Filed.exists_entry hf hk
    obtain rfl := Option.some.inj (he.symm.trans he')
    exact ⟨e, (hs k hk).trans he, hfit, Std.ReflCmp.compare_self⟩
  | heap g =>
    refine GroupHeaps.Filed.congr hf fun k hk e he => ?_
    obtain ⟨e', he', hreads⟩ := GroupHeaps.Filed.exists_entry hf hk
    obtain rfl := Option.some.inj (he.symm.trans he')
    exact ⟨e, (hs k hk).trans he, hreads, Std.ReflCmp.compare_self, Std.ReflCmp.compare_self⟩

namespace Sound

variable (hi : i.Sound source)
include hi

theorem of_added (hh : source h = none) (ha : i.Admits source h e) (hb : j.blank = i.blank)
    (hf : j.Filed (Function.update source h (some e))) (hp : j.handles.Perm (h :: i.handles)) :
    j.Sound (Function.update source h (some e)) where
  filed := hf
  nodup := hp.nodup_iff.2 (List.nodup_cons.2 ⟨fun hm => by simp [hi.complete, hh] at hm, hi.nodup⟩)
  complete k := by
    rw [hp.mem_iff, List.mem_cons, hi.complete]
    by_cases hk : k = h
    · simp [hk]
    · simp [hk]
  admitted k x hx := by
    by_cases hk : k = h
    · subst hk
      obtain rfl : e = x := by simpa using hx
      exact ha.congr hb fun g hg => Function.update_of_ne hg _ _
    · rw [Function.update_of_ne hk] at hx
      have hold := hi.admitted k x hx
      have hnew := hold.congr hb fun _ _ => rfl
      refine ⟨hnew.inBounds, fun hu g hg other ho level => ?_⟩
      by_cases hgh : g = h
      · subst hgh
        obtain rfl : e = other := by simpa using ho
        rw [isUnique_of_blank hb] at hu
        rw [projection_of_blank hb] at level
        exact ha.unrivalled hu k hk x hx (Std.OrientedCmp.eq_symm level)
      · rw [Function.update_of_ne hgh] at ho
        exact hnew.unrivalled hu g hg other ho level

theorem of_removed (hb : j.blank = i.blank) (hf : j.Filed source)
    (hp : j.handles.Perm (i.handles.erase h)) : j.Sound (Function.update source h none) := by
  have hmem (k : Handle) : k ∈ j.handles ↔ k ≠ h ∧ k ∈ i.handles := by
    rw [hp.mem_iff, hi.nodup.mem_erase_iff]
  refine ⟨hf.of_eqOn fun k hk => ?_, hp.nodup_iff.2 (hi.nodup.erase h), fun k => ?_, ?_⟩
  · exact Function.update_of_ne ((hmem k).1 hk).1 _ _
  · rw [hmem, hi.complete]
    by_cases hk : k = h
    · simp [hk]
    · simp [hk]
  · intro k x hx
    have hk : k ≠ h := by
      rintro rfl
      simp at hx
    rw [Function.update_of_ne hk] at hx
    have hold := (hi.admitted k x hx).congr hb fun _ _ => rfl
    refine ⟨hold.inBounds, fun hu g hg other ho => ?_⟩
    by_cases hgh : g = h
    · subst hgh
      simp at ho
    · rw [Function.update_of_ne hgh] at ho
      exact hold.unrivalled hu g hg other ho

end Sound

end IndexedStore.Index
