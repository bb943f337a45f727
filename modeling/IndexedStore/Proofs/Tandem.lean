import IndexedStore.Proofs.Descriptions
import Mathlib.Logic.Function.Basic

/-!
# A hash index and a tree index in tandem

Two indices on the same positions that go through the same additions and removals hold the same
handles. A probe with a wildcard visits the same ones in both. A fully set probe visits in the tree
the handles of its own key; in the hash index it also visits strays, which stand under a key with a
wildcard that agrees with its own and happens to have its hash.
-/
namespace IndexedStore

theorem Key.agrees_and_hash_iff {probe key : Key} (hl : probe.length = key.length)
    (hp : probe.isPartial = false) :
    key.hash = probe.hash ∧ probe.agrees key = true ↔ probe.selects key = true ∨
      key.isPartial = true ∧ key.hash = probe.hash ∧ probe.agrees key = true := by
  have hselects : probe.selects key = true ↔ Key.compare probe key = .eq := by
    rw [selects, hp, if_neg Bool.false_ne_true, Ordering.isEq_iff_eq_eq]
  constructor
  · rintro ⟨hhash, hagrees⟩
    cases hk : key.isPartial with
    | true => exact .inr ⟨rfl, hhash, hagrees⟩
    | false =>
      rw [Key.agrees_eq_same hp hk, Key.same_eq_true_iff hl] at hagrees
      exact .inl (hselects.2 hagrees)
  · rintro (hsel | ⟨_, hboth⟩)
    · have level := hselects.1 hsel
      exact ⟨(Key.hash_eq level).symm, Key.agrees_of_same (Key.same_of_compare level)⟩
    · exact hboth

inductive Change where
  | add (h : Handle) (e : Entry)
  | remove (h : Handle) (e : Entry)

structure Tandem where
  source : Source
  chains : HashChains
  rows : KeyRows

namespace Tandem

variable {t t' : Tandem} {shape : Shape} {h : Handle} {e probe : Entry}

def create (shape : Shape) (positions : List Nat) (source : Source) : Except Error Tandem := do
  let π ← Projection.onPositions shape positions .equality
  let ρ ← Projection.onPositions shape positions .ordering
  return ⟨source, .empty π false, .empty ρ false⟩

/-- Makes one change to both indices; the source learns what is added first. -/
def change (t : Tandem) : Change → Checked Tandem
  | .add h e => do
    let source := Function.update t.source h (some e)
    let chains ← t.chains.add source h e
    let rows ← t.rows.add h e
    return ⟨source, chains.toOption.getD t.chains, rows.toOption.getD t.rows⟩
  | .remove h e => do
    let chains ← t.chains.remove? h e
    let rows ← t.rows.remove? h e
    return { t with chains := chains.getD t.chains, rows := rows.getD t.rows }

def run : List Change → Tandem → Checked Tandem
  | [], t => .ok t
  | c :: rest, t => do run rest (← t.change c)

/-- An entry can be given for a handle: it has the shape, and a handle that is held keeps its
entry. -/
def Resolves (shape : Shape) (t : Tandem) (h : Handle) (e : Entry) : Prop :=
  e.Conforms shape ∧ (h ∈ t.chains.handles → t.source h = some e)

def Ready (shape : Shape) (t : Tandem) : Change → Prop
  | .add h e | .remove h e => t.Resolves shape h e

def Admissible (shape : Shape) : List Change → Tandem → Prop
  | [], _ => True
  | c :: rest, t => t.Ready shape c ∧ ∀ t', t.change c = .ok t' → Admissible shape rest t'

/-- Both indices hold the same handles, under the keys of their entries. -/
structure Level (shape : Shape) (t : Tandem) : Prop where
  chains : t.chains.Filed t.source
  rows : t.rows.Filed t.source
  conforms : t.source.Conforms shape
  inside : t.chains.projection.Inside shape
  offsets : t.rows.projection.offsets = t.chains.projection.offsets
  loose : t.chains.unique = false
  lax : t.rows.unique = false
  handles : t.chains.handles.Perm t.rows.handles

namespace Level

variable (ht : t.Level shape)
include ht

theorem keyOf_eq (e : Entry) : t.rows.projection.keyOf e = t.chains.projection.keyOf e := by
  rw [Projection.keyOf, ht.offsets, Projection.keyOf]

theorem fits (he : e.Conforms shape) :
    t.chains.projection.Fits e ∧ t.rows.projection.Fits e := by
  have hfit := ht.inside.fits he
  exact ⟨hfit, by rwa [Projection.Fits, ht.offsets]⟩

theorem resolve (hr : t.Resolves shape h e) :
    { t with source := Function.update t.source h (some e) }.Level shape := by
  obtain ⟨he, hheld⟩ := hr
  have hsame : ∀ g ∈ t.chains.handles,
      Function.update t.source h (some e) g = t.source g := by
    intro g hg
    by_cases hgh : g = h
    · subst hgh
      rw [Function.update_self, hheld hg]
    · rw [Function.update_of_ne hgh]
  constructor
  · refine ht.chains.congr fun g hg e' hs => ?_
    exact ⟨e', (hsame g hg).trans hs, (ht.fits (ht.conforms hs)).1, Std.ReflCmp.compare_self⟩
  · refine ht.rows.congr fun g hg e' hs => ?_
    have hg := ht.handles.mem_iff.2 hg
    exact ⟨e', (hsame g hg).trans hs, (ht.fits (ht.conforms hs)).2, Std.ReflCmp.compare_self⟩
  · intro g e' hs
    dsimp only at hs
    by_cases hgh : g = h
    · subst hgh
      rw [Function.update_self, Option.some.injEq] at hs
      exact hs ▸ he
    · rw [Function.update_of_ne hgh] at hs
      exact ht.conforms hs
  · exact ht.inside
  · exact ht.offsets
  · exact ht.loose
  · exact ht.lax
  · exact ht.handles

theorem push (hs : t.source h = some e) :
    { t with chains := t.chains.push (t.chains.projection.keyOf e).hash h
             rows := t.rows.push (t.rows.projection.keyOf e) h }.Level shape := by
  obtain ⟨hfit, hfit'⟩ := ht.fits (ht.conforms hs)
  exact
    { chains := ht.chains.push hs hfit
      rows := ht.rows.push hs hfit'
      conforms := ht.conforms
      inside := ht.inside
      offsets := ht.offsets
      loose := ht.loose
      lax := ht.lax
      handles := ht.chains.handles_push.trans
        ((ht.handles.cons h).trans ht.rows.handles_push.symm) }

theorem mem_chain_iff_mem_row (hr : t.Resolves shape h e) :
    h ∈ t.chains.chain (t.chains.projection.keyOf e).hash ↔
      h ∈ t.rows.row (t.rows.projection.keyOf e) := by
  by_cases hheld : h ∈ t.chains.handles
  · have hs := hr.2 hheld
    rw [ht.chains.mem_chain_iff hs, ht.rows.mem_row_iff hs, ← ht.handles.mem_iff]
    simp [Std.ReflCmp.compare_self]
  · refine iff_of_false (fun hc => hheld (ht.chains.mem_handles_iff.2 ⟨_, hc⟩)) fun hr => ?_
    exact hheld (ht.handles.mem_iff.2 (ht.rows.mem_handles_iff.2 ⟨_, hr⟩))

theorem pull (hr : t.Resolves shape h e)
    (hc : h ∈ t.chains.chain (t.chains.projection.keyOf e).hash) :
    { t with chains := t.chains.pull (t.chains.projection.keyOf e).hash h
             rows := t.rows.pull (t.rows.projection.keyOf e) h }.Level shape := by
  have hrow := (ht.mem_chain_iff_mem_row hr).1 hc
  exact
    { chains := ht.chains.pull hc
      rows := ht.rows.pull hrow
      conforms := ht.conforms
      inside := ht.inside
      offsets := ht.offsets
      loose := ht.loose
      lax := ht.lax
      handles := (ht.chains.handles_pull hc).trans
        ((ht.handles.erase h).trans (ht.rows.handles_pull hrow).symm) }

/-- Every change that comes with the entry of its handle goes through in both indices. -/
theorem change {c : Change} (hc : t.Ready shape c) :
    ∃ t', t.change c = .ok t' ∧ t'.Level shape := by
  cases c with
  | add h e =>
    have hlearnt := ht.resolve hc
    have hs : Function.update t.source h (some e) h = some e := Function.update_self ..
    obtain ⟨hfit, hfit'⟩ := ht.fits hc.1
    -- Neither index is unique, so neither looks for a rival.
    refine ⟨_, ?_, hlearnt.push hs⟩
    rw [Tandem.change, hlearnt.chains.add_eq hfit fun _ _ => rfl, KeyRows.add_eq hfit',
      HashChains.rival?, KeyRows.rival?, ht.loose, ht.lax]
    rfl
  | remove h e =>
    obtain ⟨hfit, hfit'⟩ := ht.fits hc.1
    rw [Tandem.change, HashChains.remove?_eq hfit, ht.rows.remove?_eq hfit']
    by_cases hm : h ∈ t.chains.chain (t.chains.projection.keyOf e).hash
    · refine ⟨_, ?_, ht.pull hc hm⟩
      rw [if_pos hm, if_pos ((ht.mem_chain_iff_mem_row hc).1 hm)]
      rfl
    · refine ⟨t, ?_, ht⟩
      rw [if_neg hm, if_neg fun hrow => hm ((ht.mem_chain_iff_mem_row hc).2 hrow)]
      rfl

theorem run {changes : List Change} (ha : Admissible shape changes t) :
    ∃ t', run changes t = .ok t' ∧ t'.Level shape := by
  induction changes generalizing t with
  | nil => exact ⟨t, rfl, ht⟩
  | cons c rest ih =>
    obtain ⟨hready, hrest⟩ := ha
    obtain ⟨t', hchange, ht'⟩ := ht.change hready
    obtain ⟨u, hrun, hu⟩ := ih ht' (hrest t' hchange)
    exact ⟨u, by rw [Tandem.run, hchange]; exact hrun, hu⟩

end Level

theorem create_spec {positions : List Nat} {source : Source} (hs : source.Conforms shape)
    (hc : create shape positions source = .ok t) : t.Level shape := by
  rw [create] at hc
  obtain ⟨π, hπ, hc⟩ := Checked.bind_eq_ok.1 hc
  obtain ⟨ρ, hρ, hc⟩ := Checked.bind_eq_ok.1 hc
  obtain rfl := Except.ok.inj hc
  obtain ⟨hinside, hoffsets⟩ := Projection.onPositions_spec hπ
  obtain ⟨_, hoffsets'⟩ := Projection.onPositions_spec hρ
  exact
    { chains := HashChains.empty_filed π false
      rows := KeyRows.empty_filed ρ false
      conforms := hs
      inside := hinside
      offsets := hoffsets'.trans hoffsets.symm
      loose := rfl
      lax := rfl
      handles := .refl _ }

/-- A handle that a fully set probe meets in the hash index only: its key has a wildcard, agrees
with the key of the probe, and shares its hash. -/
def Stray (t : Tandem) (probe : Entry) (h : Handle) : Prop :=
  h ∈ t.chains.handles ∧ ∃ e, t.source h = some e ∧
    (t.chains.projection.keyOf e).isPartial = true ∧
    (t.chains.projection.keyOf e).hash = (t.chains.projection.keyOf probe).hash ∧
    (t.chains.projection.keyOf probe).agrees (t.chains.projection.keyOf e) = true

section Probes

variable (ht : t.Level shape) (hp : probe.Conforms shape) {found reached : List Handle}
include ht hp

theorem exists_slices : ∃ found reached, t.chains.slice t.source probe = .ok found ∧
    t.rows.slice probe = .ok reached := by
  obtain ⟨hfit, hfit'⟩ := ht.fits hp
  have hreached := KeyRows.slice_eq ht.rows ht.conforms hp hfit'
  cases hpart : (t.chains.projection.keyOf probe).isPartial with
  | false => exact ⟨_, _, HashChains.slice_full ht.chains hfit hpart, hreached⟩
  | true => exact ⟨_, _, HashChains.slice_partial ht.chains hfit hpart, hreached⟩

theorem mem_reached_iff (hr : t.rows.slice probe = .ok reached) :
    h ∈ reached ↔ h ∈ t.chains.handles ∧ ∃ e, t.source h = some e ∧
      (t.chains.projection.keyOf probe).selects (t.chains.projection.keyOf e) = true := by
  obtain ⟨_, hfit'⟩ := ht.fits hp
  by_cases hheld : h ∈ t.chains.handles
  · obtain ⟨e, hs, _⟩ := ht.chains.exists_entry hheld
    rw [KeyRows.mem_slice_iff ht.rows ht.conforms hp hfit' hr hs, ht.keyOf_eq, ht.keyOf_eq,
      ← ht.handles.mem_iff]
    simp [hs]
  · refine iff_of_false (fun hm => hheld (ht.handles.mem_iff.2 ?_)) fun hm => hheld hm.1
    rw [KeyRows.slice_eq ht.rows ht.conforms hp hfit', Except.ok.injEq] at hr
    obtain ⟨row, hrow, hh⟩ := List.mem_flatMap.1 (hr ▸ hm)
    exact List.mem_flatMap.2 ⟨row, List.mem_of_mem_filter hrow, hh⟩

theorem mem_found_iff (hf : t.chains.slice t.source probe = .ok found) :
    h ∈ found ↔ h ∈ t.chains.handles ∧ ∃ e, t.source h = some e ∧
      ((t.chains.projection.keyOf probe).isPartial = true ∨
        (t.chains.projection.keyOf e).hash = (t.chains.projection.keyOf probe).hash) ∧
      (t.chains.projection.keyOf probe).agrees (t.chains.projection.keyOf e) = true := by
  obtain ⟨hfit, _⟩ := ht.fits hp
  have hmeets : t.chains.projection.meets t.source probe h = true ↔ ∃ e, t.source h = some e ∧
      (t.chains.projection.keyOf probe).agrees (t.chains.projection.keyOf e) = true :=
    Option.any_eq_true ..
  cases hpart : (t.chains.projection.keyOf probe).isPartial with
  | false =>
    rw [HashChains.slice_full ht.chains hfit hpart, Except.ok.injEq] at hf
    rw [← hf, List.mem_filter, hmeets]
    constructor
    · rintro ⟨hm, e, hs, hagrees⟩
      obtain ⟨hheld, hhash⟩ := (ht.chains.mem_chain_iff hs).1 hm
      exact ⟨hheld, e, hs, .inr hhash, hagrees⟩
    · rintro ⟨hheld, e, hs, hfalse | hhash, hagrees⟩
      · cases hfalse
      · exact ⟨(ht.chains.mem_chain_iff hs).2 ⟨hheld, hhash⟩, e, hs, hagrees⟩
  | true =>
    rw [HashChains.slice_partial ht.chains hfit hpart, Except.ok.injEq] at hf
    rw [← hf, List.mem_filter, hmeets]
    simp

/-- A probe visits in the hash index what it visits in the tree index and, if it is fully set, the
strays. -/
theorem mem_found_iff_reached_or_stray (hf : t.chains.slice t.source probe = .ok found)
    (hr : t.rows.slice probe = .ok reached) : h ∈ found ↔ h ∈ reached ∨
      (t.chains.projection.keyOf probe).isPartial = false ∧ t.Stray probe h := by
  rw [mem_found_iff ht hp hf, mem_reached_iff ht hp hr, Stray]
  cases hpart : (t.chains.projection.keyOf probe).isPartial with
  | false =>
    have hkeys (e : Entry) := Key.agrees_and_hash_iff
      (Projection.length_keyOf.trans (Projection.length_keyOf (e := e)).symm) hpart
    simp only [Bool.false_eq_true, false_or, true_and]
    constructor
    · rintro ⟨hheld, e, hs, hboth⟩
      obtain hsel | hstray := (hkeys e).1 hboth
      · exact .inl ⟨hheld, e, hs, hsel⟩
      · exact .inr ⟨hheld, e, hs, hstray⟩
    · rintro (⟨hheld, e, hs, hsel⟩ | ⟨hheld, e, hs, hstray⟩)
      · exact ⟨hheld, e, hs, (hkeys e).2 (.inl hsel)⟩
      · exact ⟨hheld, e, hs, (hkeys e).2 (.inr hstray)⟩
  | true => simp [Key.selects, hpart]

theorem full_of_mem_reached (hpart : (t.chains.projection.keyOf probe).isPartial = false)
    (hr : t.rows.slice probe = .ok reached) (hh : h ∈ reached) (hs : t.source h = some e) :
    (t.chains.projection.keyOf e).isPartial = false := by
  obtain ⟨_, e', hs', hsel⟩ := (mem_reached_iff ht hp hr).1 hh
  obtain rfl := Option.some.inj (hs.symm.trans hs')
  rw [Key.selects, hpart, if_neg Bool.false_ne_true, Ordering.isEq_iff_eq_eq] at hsel
  rw [← Key.isPartial_eq hsel, hpart]

end Probes

/-- After any run, a probe visits the same handles in both indices exactly if it has a wildcard or
there is no stray for it; the strays are what the hash index visits in excess. -/
theorem run_agrees_iff {positions : List Nat} {source : Source} {changes : List Change}
    (hs : source.Conforms shape) (hc : create shape positions source = .ok t)
    (ha : Admissible shape changes t) :
    ∃ t', run changes t = .ok t' ∧ ∀ probe : Entry, probe.Conforms shape →
      ∃ found reached, t'.chains.slice t'.source probe = .ok found ∧
        t'.rows.slice probe = .ok reached ∧
        ((∀ h, h ∈ found ↔ h ∈ reached) ↔
          ((t'.chains.projection.keyOf probe).isPartial = false → ∀ h, ¬ t'.Stray probe h)) ∧
        ((t'.chains.projection.keyOf probe).isPartial = false →
          (∀ h, h ∈ found ↔ h ∈ reached ∨ t'.Stray probe h) ∧ ∀ h ∈ reached, ∀ e,
            t'.source h = some e → (t'.chains.projection.keyOf e).isPartial = false) := by
  obtain ⟨t', hrun, ht⟩ := (create_spec hs hc).run ha
  refine ⟨t', hrun, fun probe hp => ?_⟩
  obtain ⟨found, reached, hf, hr⟩ := exists_slices ht hp
  have hfound (h : Handle) := mem_found_iff_reached_or_stray (h := h) ht hp hf hr
  refine ⟨found, reached, hf, hr, ⟨fun hsame hpart h hstray => ?_, fun hnone h => ?_⟩,
    fun hpart => ⟨fun h => ?_, fun h hh e he => full_of_mem_reached ht hp hpart hr hh he⟩⟩
  · have hh := (hsame h).1 ((hfound h).2 (.inr ⟨hpart, hstray⟩))
    obtain ⟨_, e, he, hwild, _⟩ := hstray
    rw [full_of_mem_reached ht hp hpart hr hh he] at hwild
    cases hwild
  · rw [hfound, or_iff_left fun hstray => hnone hstray.1 h hstray.2]
  · rw [hfound, hpart]
    simp

def sampleEntry (v : Value) : Entry := ⟨⟨[.int]⟩, [v]⟩

/-- An unset field is hashed like a zero, so that a probe for zero meets it in the hash index. -/
theorem zero_meets_unset : ∃ t t', create ⟨[.int]⟩ [1] (fun _ => none) = .ok t ∧
    Admissible ⟨[.int]⟩ [.add ⟨0, 0⟩ (sampleEntry (.unset .int))] t ∧
    run [.add ⟨0, 0⟩ (sampleEntry (.unset .int))] t = .ok t' ∧
    t'.chains.slice t'.source (sampleEntry (.int 0)) = .ok [⟨0, 0⟩] ∧
    t'.rows.slice (sampleEntry (.int 0)) = .ok [] := by
  refine ⟨_, _, rfl, ⟨⟨⟨rfl, rfl⟩, fun hm => absurd hm List.not_mem_nil⟩, fun _ _ => trivial⟩, rfl,
    rfl, rfl⟩

def sampleChanges : List Change :=
  [.add ⟨0, 0⟩ (sampleEntry (.unset .int)), .add ⟨1, 0⟩ (sampleEntry (.int 3)),
    .remove ⟨0, 0⟩ (sampleEntry (.unset .int))]

theorem run_agrees_iff_of_sample : ∃ t, Source.Conforms (fun _ => none) ⟨[.int]⟩ ∧
    create ⟨[.int]⟩ [1] (fun _ => none) = .ok t ∧ Admissible ⟨[.int]⟩ sampleChanges t ∧
    ∃ t', run sampleChanges t = .ok t' ∧ ∀ probe : Entry, probe.Conforms ⟨[.int]⟩ →
      ∃ found reached, t'.chains.slice t'.source probe = .ok found ∧
        t'.rows.slice probe = .ok reached ∧
        ((∀ h, h ∈ found ↔ h ∈ reached) ↔
          ((t'.chains.projection.keyOf probe).isPartial = false → ∀ h, ¬ t'.Stray probe h)) ∧
        ((t'.chains.projection.keyOf probe).isPartial = false →
          (∀ h, h ∈ found ↔ h ∈ reached ∨ t'.Stray probe h) ∧ ∀ h ∈ reached, ∀ e,
            t'.source h = some e → (t'.chains.projection.keyOf e).isPartial = false) := by
  obtain ⟨t, hc⟩ : ∃ t, create ⟨[.int]⟩ [1] (fun _ => none) = .ok t := ⟨_, rfl⟩
  have hs : Source.Conforms (fun _ => none) ⟨[.int]⟩ := fun h e he => by cases he
  suffices ha : Admissible ⟨[.int]⟩ sampleChanges t from
    ⟨t, hs, hc, ha, run_agrees_iff hs hc ha⟩
  obtain rfl := Except.ok.inj hc
  refine ⟨⟨⟨rfl, rfl⟩, by decide⟩, fun t ht => ?_⟩
  obtain rfl := Except.ok.inj ht
  refine ⟨⟨⟨rfl, rfl⟩, by decide⟩, fun t ht => ?_⟩
  obtain rfl := Except.ok.inj ht
  exact ⟨⟨⟨rfl, rfl⟩, fun _ => rfl⟩, fun _ _ => trivial⟩

end Tandem
end IndexedStore
