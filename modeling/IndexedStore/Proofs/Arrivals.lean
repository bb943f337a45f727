import IndexedStore.Proofs.IndexChanges
import IndexedStore.Proofs.KeyFields
import IndexedStore.Proofs.Tandem

/-!
# Orders of arrival

A run of additions and removals leaves some handles, each with the entry it was placed under, in the
order of their latest additions. This is what an index holds after the run, whatever its kind; some
kinds keep the order as well, among all handles or among those whose entries pass some test.
-/
namespace IndexedStore

/-- The handles that are held and the entries they were placed under, in the order of their latest
additions. -/
abbrev Arrivals := List (Handle × Entry)

namespace Arrivals

variable {placed : Arrivals} {source : Source} {shape : Shape} {positions : List Nat} {h : Handle}
  {e x : Entry}

def handles (placed : Arrivals) : List Handle := placed.map Prod.fst

def under (placed : Arrivals) (test : Entry → Bool) : List Handle :=
  handles (placed.filter fun item => test item.2)

def matching (placed : Arrivals) (positions : List Nat) (probe : Entry) : List Handle :=
  placed.under fun e => probe.Agrees positions e

/-- A source tells of every handle that is held the entry it was placed under. -/
def Resolves (placed : Arrivals) (source : Source) : Prop :=
  ∀ item ∈ placed, source item.1 = some item.2

/-- The source that tells of the handles that are held, and of no other. -/
def known (placed : Arrivals) : Source := fun h =>
  (placed.find? fun item => item.1 = h).map Prod.snd

def change (placed : Arrivals) : Change → Arrivals
  | .add h e => placed ++ [(h, e)]
  | .remove h _ => placed.filter fun item => item.1 ≠ h

/-- What is held after some changes. Each comes with the source an index can ask meanwhile. -/
def changeAll (placed : Arrivals) (changes : List (Source × Change)) : Arrivals :=
  changes.foldl (fun placed c => placed.change c.2) placed

/-- A handle can be added that is not held, with an entry all of whose key fields are set. A removal
comes with the entry of the handle, if it is held. -/
def Ready (shape : Shape) (positions : List Nat) (placed : Arrivals) : Change → Prop
  | .add h e => e.Conforms shape ∧ e.IsSet positions ∧ h ∉ placed.handles
  | .remove h e => e.Conforms shape ∧ ∀ item ∈ placed, item.1 = h → item.2 = e

/-- An entry that is added has a number on every axis, and a key that no entry held has. -/
def Fresh (axes : List Axis) (placed : Arrivals) : Change → Prop
  | .add _ e => (∀ axis ∈ axes, axis.Holds (e.field axis.position)) ∧
      ∀ item ∈ placed, ¬ e.Level (axes.map Axis.position) item.2
  | .remove _ _ => True

def Throughout (test : Arrivals → Source × Change → Prop) :
    List (Source × Change) → Arrivals → Prop
  | [], _ => True
  | c :: rest, placed => test placed c ∧ Throughout test rest (placed.change c.2)

def Admissible (shape : Shape) (positions : List Nat) (changes : List (Source × Change))
    (placed : Arrivals) : Prop :=
  Throughout (fun placed c => placed.Resolves c.1 ∧ placed.Ready shape positions c.2) changes
    placed

section Decidability

instance : Decidable (placed.Resolves source) := inferInstanceAs (Decidable (∀ item ∈ placed, _))

instance (c : Change) : Decidable (placed.Ready shape positions c) :=
  match c with
  | .add _ _ => inferInstanceAs (Decidable (_ ∧ _ ∧ _))
  | .remove _ _ => inferInstanceAs (Decidable (_ ∧ ∀ item ∈ placed, _))

instance (axes : List Axis) (c : Change) : Decidable (placed.Fresh axes c) :=
  match c with
  | .add _ _ => inferInstanceAs (Decidable ((∀ axis ∈ axes, _) ∧ ∀ item ∈ placed, _))
  | .remove _ _ => inferInstanceAs (Decidable True)

instance decidableThroughout (test : Arrivals → Source × Change → Prop)
    [∀ placed c, Decidable (test placed c)] : (changes : List (Source × Change)) →
    (placed : Arrivals) → Decidable (Throughout test changes placed)
  | [], _ => inferInstanceAs (Decidable True)
  | c :: rest, placed =>
    have := decidableThroughout test rest (placed.change c.2)
    inferInstanceAs (Decidable (test placed c ∧ _))

instance (changes : List (Source × Change)) :
    Decidable (Admissible shape positions changes placed) :=
  inferInstanceAs (Decidable (Throughout _ changes placed))

end Decidability

/-- Each handle is held once, and every entry is of one shape with its key fields set. -/
structure Regular (shape : Shape) (positions : List Nat) (placed : Arrivals) : Prop where
  nodup : placed.handles.Nodup
  conforms : ∀ item ∈ placed, item.2.Conforms shape
  set : ∀ item ∈ placed, item.2.IsSet positions

theorem Regular.change (hp : placed.Regular shape positions) {c : Change}
    (hc : placed.Ready shape positions c) : (placed.change c).Regular shape positions := by
  cases c with
  | add h e =>
    obtain ⟨he, hset, hh⟩ := hc
    refine ⟨?_, List.forall_mem_append.2 ⟨hp.conforms, List.forall_mem_singleton.2 he⟩,
      List.forall_mem_append.2 ⟨hp.set, List.forall_mem_singleton.2 hset⟩⟩
    rw [Arrivals.change, handles, List.map_append]
    exact List.nodup_append_comm.1 (List.nodup_cons.2 ⟨hh, hp.nodup⟩)
  | remove h e =>
    have hsub : (placed.change (.remove h e)).Sublist placed := List.filter_sublist
    exact ⟨hp.nodup.sublist (hsub.map _), fun item hi => hp.conforms item (hsub.subset hi),
      fun item hi => hp.set item (hsub.subset hi)⟩

theorem Regular.changeAll (hp : placed.Regular shape positions)
    {changes : List (Source × Change)} (hrun : Admissible shape positions changes placed) :
    (placed.changeAll changes).Regular shape positions := by
  induction changes generalizing placed with
  | nil => exact hp
  | cons c rest ih => exact ih (hp.change hrun.1.2) hrun.2

/-! ## Handles under a test -/

theorem nodup_under (hn : placed.handles.Nodup) (test : Entry → Bool) :
    (placed.under test).Nodup :=
  hn.sublist (List.filter_sublist.map _)

theorem under_append (test : Entry → Bool) :
    under (placed ++ [(h, e)]) test = if test e then placed.under test ++ [h]
      else placed.under test := by
  rw [under, List.filter_append]
  cases htest : test e <;> simp [htest, under, handles]

theorem under_remove (hn : placed.handles.Nodup) (test : Entry → Bool) :
    under (placed.filter fun item => item.1 ≠ h) test = (placed.under test).erase h := by
  rw [(nodup_under hn test).erase_eq_filter, under, under, handles, handles, List.filter_map,
    List.filter_filter, List.filter_filter]
  congr 1
  refine List.filter_congr fun item _ => ?_
  rw [Bool.eq_iff_iff]
  simp [and_comm]

theorem under_congr {test other : Entry → Bool} (h : ∀ item ∈ placed, test item.2 = other item.2) :
    placed.under test = placed.under other := by
  rw [under, under, List.filter_congr h]

theorem under_true (placed : Arrivals) : (placed.under fun _ => true) = placed.handles := by
  simp [under]

theorem handles_remove (hn : placed.handles.Nodup) :
    (placed.change (.remove h e)).handles = placed.handles.erase h := by
  rw [change, ← under_true, under_remove hn, under_true]

theorem mem_under_iff {test : Entry → Bool} :
    h ∈ placed.under test ↔ ∃ e, (h, e) ∈ placed ∧ test e = true := by
  simp [under, handles]

theorem nodup_matching (hn : placed.handles.Nodup) (positions : List Nat) (probe : Entry) :
    (placed.matching positions probe).Nodup := nodup_under hn _

theorem mem_matching_iff {probe : Entry} :
    h ∈ placed.matching positions probe ↔ ∃ e, (h, e) ∈ placed ∧ probe.Agrees positions e := by
  simp [matching, mem_under_iff]

theorem change_remove_of_not_mem (hh : h ∉ placed.handles) :
    placed.change (.remove h e) = placed := by
  rw [change, List.filter_eq_self]
  intro item hi
  simp only [ne_eq, decide_not, Bool.not_eq_true', decide_eq_false_iff_not]
  exact fun he => hh (he ▸ List.mem_map_of_mem hi)

theorem Throughout.imp {test other : Arrivals → Source × Change → Prop}
    {changes : List (Source × Change)} (h : Throughout test changes placed)
    (himp : ∀ placed c, test placed c → other placed c) : Throughout other changes placed := by
  induction changes generalizing placed with
  | nil => trivial
  | cons c rest ih => exact ⟨himp placed c h.1, ih h.2⟩

/-! ## The source of the handles held -/

theorem mem_of_known (he : placed.known h = some e) : (h, e) ∈ placed := by
  rw [known, Option.map_eq_some_iff] at he
  obtain ⟨⟨k, x⟩, hfind, rfl⟩ := he
  obtain rfl : k = h := by simpa using List.find?_some hfind
  exact List.mem_of_find?_eq_some hfind

theorem known_eq_none_iff : placed.known h = none ↔ h ∉ placed.handles := by
  rw [known, Option.map_eq_none_iff, List.find?_eq_none, handles, List.mem_map]
  simp only [decide_eq_true_eq, not_exists, not_and]

section Nodup

variable (hn : placed.handles.Nodup)
include hn

theorem eq_of_mem (he : (h, e) ∈ placed) (hx : (h, x) ∈ placed) : e = x :=
  congrArg Prod.snd (List.inj_on_of_nodup_map hn he hx rfl)

theorem known_eq_some_iff : placed.known h = some e ↔ (h, e) ∈ placed := by
  refine ⟨mem_of_known, fun he => ?_⟩
  cases hx : placed.known h with
  | none => exact absurd (List.mem_map_of_mem he) (known_eq_none_iff.1 hx)
  | some x => rw [eq_of_mem hn (mem_of_known hx) he]

theorem resolves_known : placed.Resolves placed.known := fun _ hi =>
  (known_eq_some_iff hn).2 hi

end Nodup

/-- A fully set probe agrees with the entries whose keys are level with its own. -/
theorem Regular.agrees_iff_level {π : Projection} {probe : Entry}
    (hp : placed.Regular shape positions) (hπ : π.positions = positions)
    (hset : probe.IsSet positions) {item : Handle × Entry} (hi : item ∈ placed) :
    probe.Agrees positions item.2 ↔ Key.compare (π.keyOf probe) (π.keyOf item.2) = .eq := by
  rw [Entry.agrees_iff_level hset (hp.set item hi)]
  exact (Projection.level_iff_of_fields fun e => by rw [Projection.keyOf_eq_map_field, hπ]).symm

theorem filter_meets {π : Projection} (hn : placed.handles.Nodup) (hπ : π.positions = positions)
    (test : Entry → Bool) (probe : Entry) :
    (placed.under test).filter (π.meets placed.known probe) =
      placed.under fun e => test e && decide (probe.Agrees positions e) := by
  rw [under, under, handles, handles, List.filter_map, List.filter_filter]
  congr 1
  refine List.filter_congr fun item hi => ?_
  have hknown : placed.known item.1 = some item.2 := resolves_known hn item hi
  have hagrees := Projection.agrees_iff_of_fields (a := probe) (b := item.2) fun e => by
    rw [Projection.keyOf_eq_map_field, hπ]
  rw [Bool.and_comm, Function.comp, Projection.meets, hknown, Option.any_some, Bool.eq_iff_iff,
    Bool.and_eq_true, hagrees, Bool.and_eq_true, decide_eq_true_eq]

theorem Resolves.eq_known (hs : placed.Resolves source) (hh : h ∈ placed.handles) :
    source h = placed.known h := by
  cases he : placed.known h with
  | none => exact absurd hh (known_eq_none_iff.1 he)
  | some e => exact hs (h, e) (mem_of_known he)

theorem Regular.conforms_known (hp : placed.Regular shape positions) :
    placed.known.Conforms shape := fun _ _ he => hp.conforms _ (mem_of_known he)

theorem known_append (hh : h ∉ placed.handles) :
    known (placed ++ [(h, e)]) = Function.update placed.known h (some e) := by
  funext k
  by_cases hk : k = h
  · subst hk
    have hnone : placed.find? (fun item => item.1 = k) = none := by
      simpa [known] using known_eq_none_iff.2 hh
    rw [Function.update_self, known, List.find?_append, hnone]
    simp
  · rw [Function.update_of_ne hk, known, known, List.find?_append]
    simp [Ne.symm hk]

theorem known_remove :
    known (placed.filter fun item => item.1 ≠ h) = Function.update placed.known h none := by
  funext k
  by_cases hk : k = h
  · subst hk
    rw [Function.update_self, known_eq_none_iff]
    simp [handles]
  · rw [Function.update_of_ne hk, known, known, List.find?_filter]
    congr 2
    funext item
    by_cases hi : item.1 = k
    · simp [hi, hk]
    · simp [hi]

end Arrivals
end IndexedStore
