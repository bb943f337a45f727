import IndexedStore.Proofs.Arrivals
import IndexedStore.Proofs.Lookups

/-!
# Kinds of indices agree

A list, a hash index and a tree index on the same fields that go through the same additions and
removals, none of them unique, answer every probe with the same handles while all keys are fully
set. So does an array index whose bounds the keys keep to. A list, a hash index and a tree index
answer a fully set probe in one order, that of arrival.
-/
namespace IndexedStore

/-! ## Chains and rows in order of arrival -/

namespace HashChains

def Ordered (placed : Arrivals) (c : HashChains) : Prop :=
  ∀ hash, c.chain hash = placed.under fun e => (c.projection.keyOf e).hash = hash

variable {c : HashChains} {placed : Arrivals} {h : Handle} {e probe : Entry} {hash : UInt32}
  {shape : Shape} {positions : List Nat} (ho : c.Ordered placed) (hf : c.Filed placed.known)
include ho hf

theorem Ordered.push : (c.push (c.projection.keyOf e).hash h).Ordered (placed ++ [(h, e)]) := by
  intro hash
  change _ = Arrivals.under (placed ++ [(h, e)]) fun x => (c.projection.keyOf x).hash = hash
  rw [hf.chain_push, Arrivals.under_append, ← ho]
  by_cases hh : hash = (c.projection.keyOf e).hash
  · simp [hh]
  · simp [hh, Ne.symm hh]

theorem Ordered.pull (hn : placed.handles.Nodup) (hh : h ∈ c.chain hash) :
    (c.pull hash h).Ordered (placed.change (.remove h e)) := by
  intro k
  change _ = Arrivals.under _ fun x => (c.projection.keyOf x).hash = k
  rw [hf.chain_pull, Arrivals.change, Arrivals.under_remove hn, ← ho]
  by_cases hk : k = hash
  · rw [if_pos hk, hk]
  · rw [if_neg hk, List.erase_of_not_mem]
    -- No handle stands in two chains.
    intro hm
    obtain ⟨e, hs, _, hhash⟩ := hf.placed hash h hh
    exact hk (((hf.mem_chain_iff hs).1 hm).2.symm.trans hhash)

omit hf in
/-- In the chain of a fully set probe, those that agree with it have its key. -/
theorem Ordered.filter_meets (hp : placed.Regular shape positions)
    (hfields : c.projection.positions = positions) (hset : probe.IsSet positions) :
    (c.chain (c.projection.keyOf probe).hash).filter (c.projection.meets placed.known probe) =
      placed.matching positions probe := by
  rw [ho, Arrivals.filter_meets hp.nodup hfields]
  refine Arrivals.under_congr fun item hi => ?_
  have hhash (hagrees : probe.Agrees positions item.2) :
      (c.projection.keyOf item.2).hash = (c.projection.keyOf probe).hash :=
    (Key.hash_eq ((hp.agrees_iff_level hfields hset hi).1 hagrees)).symm
  rw [Bool.eq_iff_iff]
  simpa using hhash

end HashChains

namespace KeyRows

def Ordered (placed : Arrivals) (r : KeyRows) : Prop :=
  ∀ key, r.row key = placed.under fun e => Key.compare (r.projection.keyOf e) key = .eq

variable {r : KeyRows} {placed : Arrivals} {h : Handle} {e probe : Entry} {key : Key}
  {shape : Shape} {positions : List Nat} (ho : r.Ordered placed) (hf : r.Filed placed.known)
include ho hf

theorem Ordered.push : (r.push (r.projection.keyOf e) h).Ordered (placed ++ [(h, e)]) := by
  intro key
  change _ = Arrivals.under (placed ++ [(h, e)]) fun x => Key.compare (r.projection.keyOf x) key = .eq
  rw [hf.row_push, Arrivals.under_append, ← ho]
  by_cases level : Key.compare key (r.projection.keyOf e) = .eq
  · simp [level, Std.OrientedCmp.eq_symm level, row_congr level]
  · have hother : Key.compare (r.projection.keyOf e) key ≠ .eq := fun h =>
      level (Std.OrientedCmp.eq_symm h)
    simp [level, hother]

theorem Ordered.pull (hn : placed.handles.Nodup) (hh : h ∈ r.row key) :
    (r.pull key h).Ordered (placed.change (.remove h e)) := by
  intro k
  change _ = Arrivals.under _ fun x => Key.compare (r.projection.keyOf x) k = .eq
  rw [hf.row_pull, Arrivals.change, Arrivals.under_remove hn, ← ho]
  by_cases level : Key.compare k key = .eq
  · rw [if_pos level, row_congr level]
  · rw [if_neg level, List.erase_of_not_mem]
    intro hm
    obtain ⟨e, hs, _, hkey⟩ := hf.exists_of_mem_row hh
    exact level (Std.TransCmp.eq_trans (Std.OrientedCmp.eq_symm ((hf.mem_row_iff hs).1 hm).2) hkey)

omit hf in
theorem Ordered.row_eq (hp : placed.Regular shape positions)
    (hfields : r.projection.positions = positions) (hset : probe.IsSet positions) :
    r.row (r.projection.keyOf probe) = placed.matching positions probe := by
  rw [ho]
  refine Arrivals.under_congr fun item hi => ?_
  rw [decide_eq_decide, hp.agrees_iff_level hfields hset hi]
  exact ⟨Std.OrientedCmp.eq_symm, Std.OrientedCmp.eq_symm⟩

end KeyRows

namespace Index

variable {i j : Index} {shape : Shape} {positions : List Nat} {placed : Arrivals} {source : Source}
  {h : Handle} {e probe : Entry} {c : Change} {changes : List (Source × Change)}

/-- One change of an index, which can ask a source. A refused addition leaves the index as it is. -/
def change (source : Source) (i : Index) : Change → Checked Index
  | .add h e => do return (← i.add source h e).toOption.getD i
  | .remove h e => i.remove h e

def changeAll (i : Index) (changes : List (Source × Change)) : Checked Index :=
  changes.foldlM (fun i c => i.change c.1 c.2) i

/-- Handles under one key stand in order of arrival. -/
def Ordered (placed : Arrivals) : Index → Prop
  | .list l => l.handles = placed.handles
  | .hash c => c.Ordered placed
  | .tree r => r.Ordered placed
  | .array _ | .heap _ => False

/-- An index on some positions holds what has arrived, and nothing else. -/
structure Mirrors (shape : Shape) (positions : List Nat) (placed : Arrivals) (i : Index) :
    Prop where
  reads : i.Reads shape
  fields : i.projection.positions = positions
  sound : i.Sound placed.known

def Accepts (i : Index) (placed : Arrivals) : Change → Prop
  | .add h e => i.Admits placed.known h e
  | .remove _ _ => True

section Order

variable (ho : i.Ordered placed) (hf : i.Filed placed.known)
include ho hf

theorem Ordered.add (hadded : Added h e i j) : j.Ordered (placed ++ [(h, e)]) := by
  cases hadded with
  | @list l =>
    have ho : l.handles = placed.handles := ho
    rw [Ordered, ScanList.add, ho, Arrivals.handles, Arrivals.handles, List.map_append]
    rfl
  | hash => exact HashChains.Ordered.push ho hf
  | tree => exact KeyRows.Ordered.push ho hf
  | array | heap => exact ho.elim

theorem Ordered.remove (hn : placed.handles.Nodup) (hremoved : Removed h e i j) :
    j.Ordered (placed.change (.remove h e)) := by
  cases hremoved with
  | @list l =>
    have ho : l.handles = placed.handles := ho
    rw [Ordered, ScanList.pull, ho, Arrivals.handles_remove hn]
  | hash hh => exact HashChains.Ordered.pull ho hf hn hh
  | tree hh => exact KeyRows.Ordered.pull ho hf hn hh
  | array | heap => exact ho.elim

end Order

/-! ## What has arrived -/

namespace Mirrors

variable (hm : i.Mirrors shape positions placed)
include hm

theorem keyOf_eq (e : Entry) : i.projection.keyOf e = positions.map e.field := by
  rw [Projection.keyOf_eq_map_field, hm.fields]

theorem mem_handles_iff : h ∈ i.handles ↔ h ∈ placed.handles := by
  rw [hm.sound.complete, ← not_iff_not, Option.not_isSome_iff_eq_none, Arrivals.known_eq_none_iff]

theorem eqOn_handles (hs : placed.Resolves source) : ∀ k ∈ i.handles, source k = placed.known k :=
  fun _ hk => hs.eq_known (hm.mem_handles_iff.1 hk)

theorem of_blank {later : Arrivals} (hb : j.blank = i.blank) (hj : j.Sound later.known) :
    j.Mirrors shape positions later :=
  ⟨hm.reads.congr hb, by rw [projection_of_blank hb, hm.fields], hj⟩

theorem add (hp : placed.Regular shape positions) (hs : placed.Resolves source)
    (he : e.Conforms shape) (hh : h ∉ placed.handles) (ha : i.Admits placed.known h e) :
    ∃ j, i.add source h e = .ok (.ok j) ∧ j.blank = i.blank ∧
      j.Mirrors shape positions (placed ++ [(h, e)]) ∧
      (i.Ordered placed → j.Ordered (placed ++ [(h, e)])) := by
  obtain ⟨result, hadd, hresult⟩ := hm.sound.add hm.reads hp.conforms_known
    (Arrivals.known_eq_none_iff.2 hh) he (hm.eqOn_handles hs)
  cases result with
  | error why => exact absurd ha hresult
  | ok j =>
    obtain ⟨_, hsound, hb⟩ := hresult
    rw [← Arrivals.known_append hh] at hsound
    refine ⟨j, hadd, hb, hm.of_blank hb hsound, fun ho => ?_⟩
    exact ho.add hm.sound.filed (hm.sound.added hm.reads (Arrivals.known_eq_none_iff.2 hh) he hadd)

theorem remove (hp : placed.Regular shape positions) (he : e.Conforms shape)
    (hplaced : ∀ item ∈ placed, item.1 = h → item.2 = e) :
    ∃ j, i.remove h e = .ok j ∧ j.blank = i.blank ∧
      j.Mirrors shape positions (placed.change (.remove h e)) ∧
      (i.Ordered placed → j.Ordered (placed.change (.remove h e))) := by
  have hfit := hm.reads.fits he
  by_cases hh : h ∈ placed.handles
  · obtain ⟨⟨_, x⟩, hx, rfl⟩ := List.mem_map.1 hh
    obtain rfl : x = e := hplaced _ hx rfl
    obtain ⟨j, hremove, hremoved, hb, hf, hperm⟩ := hm.sound.remove? hm.reads he
      ((Arrivals.known_eq_some_iff hp.nodup).2 hx)
    have hsound := hm.sound.of_removed hb hf hperm
    rw [← Arrivals.known_remove] at hsound
    refine ⟨j, by rw [Index.remove, hremove]; rfl, hb, hm.of_blank hb hsound, fun ho => ?_⟩
    exact ho.remove hm.sound.filed hp.nodup hremoved
  · have hremove := hm.sound.filed.remove?_eq_none hfit (mt hm.mem_handles_iff.1 hh)
    rw [Arrivals.change_remove_of_not_mem hh]
    exact ⟨i, by rw [Index.remove, hremove]; rfl, rfl, hm, id⟩

theorem change (hp : placed.Regular shape positions) (hs : placed.Resolves source)
    (hc : placed.Ready shape positions c) (ha : i.Accepts placed c) :
    ∃ j, i.change source c = .ok j ∧ j.blank = i.blank ∧
      j.Mirrors shape positions (placed.change c) ∧
      (i.Ordered placed → j.Ordered (placed.change c)) := by
  cases c with
  | add h e =>
    obtain ⟨he, _, hh⟩ := hc
    obtain ⟨j, hadd, hj⟩ := hm.add hp hs he hh ha
    exact ⟨j, by rw [Index.change, hadd]; rfl, hj⟩
  | remove h e =>
    obtain ⟨he, hplaced⟩ := hc
    exact hm.remove hp he hplaced

end Mirrors

theorem Accepts.of_blank (ha : i.Accepts placed c) (hb : j.blank = i.blank) :
    j.Accepts placed c := by
  cases c with
  | add h e => exact Admits.congr ha hb fun _ _ => rfl
  | remove h e => trivial

/-- A run of changes that an index accepts leaves it with what has arrived, and in order. -/
theorem Mirrors.changeAll (hm : i.Mirrors shape positions placed)
    (hp : placed.Regular shape positions)
    (hrun : Arrivals.Admissible shape positions changes placed)
    (ha : Arrivals.Throughout (fun placed c => i.Accepts placed c.2) changes placed) :
    ∃ j, i.changeAll changes = .ok j ∧ j.Mirrors shape positions (placed.changeAll changes) ∧
      (i.Ordered placed → j.Ordered (placed.changeAll changes)) := by
  induction changes generalizing i placed with
  | nil => exact ⟨i, rfl, hm, id⟩
  | cons c rest ih =>
    obtain ⟨⟨hs, hc⟩, hrun⟩ := hrun
    obtain ⟨ha, hrest⟩ := ha
    obtain ⟨j, hchange, hb, hj, horder⟩ := hm.change hp hs hc ha
    obtain ⟨last, hlast, hmirrors, hordered⟩ := ih hj (hp.change hc) hrun
      (hrest.imp fun _ _ hall => hall.of_blank hb)
    refine ⟨last, ?_, hmirrors, fun ho => hordered (horder ho)⟩
    rw [Index.changeAll, List.foldlM_cons, hchange]
    exact hlast

/-! ## Answers -/

section Answers

variable (hm : i.Mirrors shape positions placed) (hp : placed.Regular shape positions)
include hm hp

theorem Mirrors.hits_perm (hprobe : probe.Conforms shape) :
    (i.hits placed.known probe).Perm (placed.matching positions probe) := by
  refine (List.perm_ext_iff_of_nodup (hm.sound.nodup_hits probe)
    (Arrivals.nodup_matching hp.nodup positions probe)).2 fun h => ?_
  have hmem {e : Entry} (he : (h, e) ∈ placed) :
      h ∈ i.hits placed.known probe ↔ probe.Agrees positions e :=
    (hm.sound.mem_hits_iff hm.reads hp.conforms_known hprobe
      ((Arrivals.known_eq_some_iff hp.nodup).2 he)
      (.inr ((Projection.isSet_iff_of_fields hm.keyOf_eq).2 (hp.set _ he)))).trans
    (Projection.agrees_iff_of_fields hm.keyOf_eq)
  rw [Arrivals.mem_matching_iff]
  constructor
  · intro hh
    have hheld := hm.mem_handles_iff.1 (mem_handles_of_mem_hits hm.sound.filed hh)
    obtain ⟨⟨_, e⟩, he, rfl⟩ := List.mem_map.1 hheld
    exact ⟨e, he, (hmem he).1 hh⟩
  · rintro ⟨e, he, hagrees⟩
    exact (hmem he).2 hagrees

/-- A fully set probe visits the handles of its own key in order of arrival. -/
theorem Mirrors.hits_eq (ho : i.Ordered placed) (hset : probe.IsSet positions) :
    i.hits placed.known probe = placed.matching positions probe := by
  have hfull := (Projection.isSet_iff_of_fields hm.keyOf_eq).2 hset
  have hfields := hm.fields
  cases i with
  | list l =>
    have ho : l.handles = placed.handles := ho
    have hfields : l.projection.positions = positions := hfields
    rw [hits, ho, ← Arrivals.under_true, Arrivals.filter_meets hp.nodup hfields]
    rfl
  | hash c =>
    have hfull : (c.projection.keyOf probe).isPartial = false := hfull
    rw [hits, hfull, if_neg Bool.false_ne_true]
    exact HashChains.Ordered.filter_meets ho hp hfields hset
  | tree r =>
    have hfull : (r.projection.keyOf probe).isPartial = false := hfull
    have hf : r.Filed placed.known := hm.sound.filed
    rw [hits, hf.flatMap_selects hfull]
    exact KeyRows.Ordered.row_eq ho hp hfields hset
  | array | heap => exact ho.elim

end Answers

/-- Every probe is answered with the handles that match, each once, whatever a source tells of
handles that are not held. -/
def Visits (shape : Shape) (positions : List Nat) (placed : Arrivals) (i : Index) : Prop :=
  ∀ source probe, placed.Resolves source → probe.Conforms shape → ∃ hits,
    i.slice source probe = .ok hits ∧ hits.Perm (placed.matching positions probe)

/-- A fully set probe is answered in order of arrival, and a lookup for one handle with the first. -/
def VisitsInOrder (shape : Shape) (positions : List Nat) (placed : Arrivals) (i : Index) : Prop :=
  ∀ source probe, placed.Resolves source → probe.Conforms shape → probe.IsSet positions →
    i.slice source probe = .ok (placed.matching positions probe) ∧
    i.get source probe = .ok (placed.matching positions probe).head?

section Answers

variable (hm : i.Mirrors shape positions placed) (hp : placed.Regular shape positions)
include hm hp

theorem Mirrors.slice_eq (hs : placed.Resolves source) (hprobe : probe.Conforms shape) :
    i.slice source probe = .ok (i.hits placed.known probe) :=
  (slice_congr hm.sound.filed (hm.reads.fits hprobe) (hm.eqOn_handles hs)).trans
    (hm.sound.filed.slice_eq hm.reads hp.conforms_known hprobe)

theorem Mirrors.visits : i.Visits shape positions placed := fun _ _ hs hprobe =>
  ⟨_, hm.slice_eq hp hs hprobe, hm.hits_perm hp hprobe⟩

theorem Mirrors.visitsInOrder (ho : i.Ordered placed) : i.VisitsInOrder shape positions placed := by
  intro source probe hs hprobe hset
  have hheap : i.kind.isHeap = false := by
    cases i with
    | heap g => exact ho.elim
    | list | hash | tree | array => rfl
  rw [hm.slice_eq hp hs hprobe,
    get_congr hm.sound.filed (hm.reads.fits hprobe) (hm.eqOn_handles hs),
    hm.sound.filed.get_eq_head? hm.reads hp.conforms_known hprobe hheap, hm.hits_eq hp ho hset]
  exact ⟨rfl, rfl⟩

end Answers

/-! ## All kinds -/

theorem changeAll_of_empty (hempty : i.blank = i) (hr : i.Reads shape)
    (hfields : i.projection.positions = positions)
    (hrun : Arrivals.Admissible shape positions changes [])
    (ha : Arrivals.Throughout (fun placed c => i.Accepts placed c.2) changes []) :
    ∃ j, i.changeAll changes = .ok j ∧
      j.Visits shape positions (Arrivals.changeAll [] changes) ∧
      (i.Ordered [] → j.VisitsInOrder shape positions (Arrivals.changeAll [] changes)) := by
  have hsound : i.Sound (Arrivals.known []) :=
    sound_of_empty (hempty ▸ blank_filed) (hempty ▸ handles_blank) fun _ => rfl
  have hnone : Arrivals.Regular shape positions [] := ⟨List.nodup_nil, by simp, by simp⟩
  obtain ⟨j, hchanges, hj, hordered⟩ := Mirrors.changeAll ⟨hr, hfields, hsound⟩ hnone hrun ha
  have hlast := hnone.changeAll hrun
  exact ⟨j, hchanges, hj.visits hlast, fun ho => hj.visitsInOrder hlast (hordered ho)⟩

theorem accepts_of_not_unique (hu : i.isUnique = false) : i.Accepts placed c := by
  cases c with
  | add h e => exact admits_of_not_unique hu
  | remove h e => trivial

theorem accepts_of_fresh {g : AddressGrid} (hslots : g.capacity ≠ 0)
    (hfields : g.axes.map Axis.position = g.projection.positions) (hc : placed.Fresh g.axes c) :
    (array g).Accepts placed c := by
  cases c with
  | remove h e => trivial
  | add h e =>
    obtain ⟨hholds, hdistinct⟩ := hc
    have hkey (e : Entry) : g.projection.keyOf e = (g.axes.map Axis.position).map e.field := by
      rw [Projection.keyOf_eq_map_field, hfields]
    have hpairs : (g.projection.keyOf e).zip g.axes =
        g.axes.map fun axis => (e.field axis.position, axis) := by
      have hzip := List.zip_map' (f := e.field ∘ Axis.position) (g := id) (l := g.axes)
      rwa [List.map_id, ← List.map_map, ← hkey] at hzip
    refine ⟨?_, fun _ k _ other ho level => ?_⟩
    · rw [InBounds, ← Option.isSome_iff_exists, AddressGrid.addressOf, if_neg hslots,
        AddressGrid.isSome_stepAll_iff, hpairs, List.forall_mem_map]
      exact hholds
    · exact hdistinct (k, other) (Arrivals.mem_of_known ho)
        ((Projection.level_iff_of_fields hkey).1 level)

/-- After any run of additions and removals under fully set keys, a list, a hash index and a tree
index on the same fields visit the handles that match a probe, those of a fully set probe in order
of arrival; and an array index visits the same ones, if the keys keep to its bounds and differ.
Bounds too far apart leave it without slots, and no key inside them. -/
theorem kinds_agree {fields : List Nat} {π ρ : Projection}
    (hπ : Projection.onPositions shape fields .equality = .ok π)
    (hρ : Projection.onPositions shape fields .ordering = .ok ρ)
    (ha : Arrivals.Admissible shape π.positions changes []) :
    (∀ i ∈ [list (.empty π), hash (.empty π false), tree (.empty ρ false)],
      ∃ j, i.changeAll changes = .ok j ∧
        j.Visits shape π.positions (Arrivals.changeAll [] changes) ∧
        j.VisitsInOrder shape π.positions (Arrivals.changeAll [] changes)) ∧
    ∀ axes : List Axis, axes.map Axis.position = π.positions →
      (AddressGrid.empty π axes).capacity ≠ 0 →
      Arrivals.Throughout (fun placed c => placed.Fresh axes c.2) changes [] →
      ∃ g, (array (.empty π axes)).changeAll changes = .ok g ∧
        g.Visits shape π.positions (Arrivals.changeAll [] changes) := by
  obtain ⟨hinside, hoffsets⟩ := Projection.onPositions_spec hπ
  obtain ⟨hinside', hoffsets'⟩ := Projection.onPositions_spec hρ
  have hfields : ρ.positions = π.positions := by
    rw [Projection.positions, hoffsets', Projection.positions, hoffsets]
  constructor
  · intro i hi
    have hplain : i.blank = i ∧ i.Reads shape ∧ i.projection.positions = π.positions ∧
        i.isUnique = false ∧ i.Ordered [] := by
      simp only [List.mem_cons, List.not_mem_nil, or_false] at hi
      rcases hi with rfl | rfl | rfl
      · exact ⟨rfl, ⟨hinside, trivial⟩, rfl, rfl, rfl⟩
      · exact ⟨rfl, ⟨hinside, trivial⟩, rfl, rfl, fun _ => rfl⟩
      · exact ⟨rfl, ⟨hinside', trivial⟩, hfields, rfl, fun _ => rfl⟩
    obtain ⟨hempty, hr, hpositions, hu, ho⟩ := hplain
    obtain ⟨j, hchanges, hvisits, horder⟩ := changeAll_of_empty hempty hr hpositions ha
      (ha.imp fun _ _ _ => accepts_of_not_unique hu)
    exact ⟨j, hchanges, hvisits, horder ho⟩
  · intro axes haxes hslots hfresh
    have hr : (array (.empty π axes)).Reads shape := by
      have hwidth : axes.length = π.width := by
        simpa [Projection.positions, Projection.width] using congrArg List.length haxes
      exact ⟨hinside, hwidth⟩
    obtain ⟨g, hchanges, hvisits, _⟩ := changeAll_of_empty rfl hr rfl ha
      (hfresh.imp fun _ _ => accepts_of_fresh hslots haxes)
    exact ⟨g, hchanges, hvisits⟩

def sampleKeyed (h : Handle) : Entry := ⟨⟨[.int]⟩, [.int (if h.slot = 1 then 5 else 3)]⟩

def sampleAdd (slot : UInt32) : Source × Change :=
  (fun h => some (sampleKeyed h), .add ⟨slot, 0⟩ (sampleKeyed ⟨slot, 0⟩))

def sampleRemove (slot : UInt32) : Source × Change :=
  (fun h => some (sampleKeyed h), .remove ⟨slot, 0⟩ (sampleKeyed ⟨slot, 0⟩))

def sampleReturn : List (Source × Change) :=
  [sampleAdd 0, sampleAdd 1, sampleAdd 2, sampleRemove 0, sampleAdd 0]

def sampleRelay : List (Source × Change) := [sampleAdd 0, sampleAdd 1, sampleRemove 0, sampleAdd 2]

def sampleAxis : Axis := ⟨1, 0, 10⟩

theorem kinds_agree_of_return : ∃ π ρ,
    Projection.onPositions ⟨[.int]⟩ [1] .equality = .ok π ∧
    Projection.onPositions ⟨[.int]⟩ [1] .ordering = .ok ρ ∧
    Arrivals.Admissible ⟨[.int]⟩ π.positions sampleReturn [] ∧
    (∀ i ∈ [list (.empty π), hash (.empty π false), tree (.empty ρ false)],
      ∃ j, i.changeAll sampleReturn = .ok j ∧
        j.Visits ⟨[.int]⟩ π.positions (Arrivals.changeAll [] sampleReturn) ∧
        j.VisitsInOrder ⟨[.int]⟩ π.positions (Arrivals.changeAll [] sampleReturn)) ∧
    (Arrivals.changeAll [] sampleReturn).matching π.positions (sampleKeyed ⟨0, 0⟩) =
      [⟨2, 0⟩, ⟨0, 0⟩] ∧
    Arrivals.Admissible ⟨[.int]⟩ π.positions sampleRelay [] ∧
    [sampleAxis].map Axis.position = π.positions ∧
    (AddressGrid.empty π [sampleAxis]).capacity ≠ 0 ∧
    Arrivals.Throughout (fun placed c => placed.Fresh [sampleAxis] c.2) sampleRelay [] ∧
    ∃ g, (array (.empty π [sampleAxis])).changeAll sampleRelay = .ok g ∧
      g.Visits ⟨[.int]⟩ π.positions (Arrivals.changeAll [] sampleRelay) := by
  obtain ⟨π, hπ⟩ : ∃ π, Projection.onPositions ⟨[.int]⟩ [1] .equality = .ok π := ⟨_, rfl⟩
  obtain ⟨ρ, hρ⟩ : ∃ ρ, Projection.onPositions ⟨[.int]⟩ [1] .ordering = .ok ρ := ⟨_, rfl⟩
  have hpositions : π.positions = [1] := by
    obtain rfl := Except.ok.inj hπ
    rfl
  have hreturn : Arrivals.Admissible ⟨[.int]⟩ π.positions sampleReturn [] := by
    rw [hpositions]
    decide
  have hrelay : Arrivals.Admissible ⟨[.int]⟩ π.positions sampleRelay [] := by
    rw [hpositions]
    decide
  have hslots : (AddressGrid.empty π [sampleAxis]).capacity ≠ 0 := by
    obtain rfl := Except.ok.inj hπ
    decide
  have hfresh : Arrivals.Throughout (fun placed c => placed.Fresh [sampleAxis] c.2)
      sampleRelay [] := by decide
  refine ⟨π, ρ, hπ, hρ, hreturn, (kinds_agree hπ hρ hreturn).1, ?_, hrelay, hpositions.symm, hslots,
    hfresh, (kinds_agree hπ hρ hrelay).2 [sampleAxis] hpositions.symm hslots hfresh⟩
  rw [hpositions]
  decide

end Index
end IndexedStore
