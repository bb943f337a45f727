import IndexedStore.Proofs.Contents
import IndexedStore.Proofs.WildcardSlices

/-!
# Comparison of contents

Two stores of one shape are found to hold the same contents only if their entries can be paired, one
with one, close entries with each other; and it does not matter which of the two is asked. The
converse holds where entries that share a close entry share them all, so it holds without doubles:
there the verdict is equality of contents. With doubles a pairing can be missed, and then the
verdict depends on the order of the entries. An infinity or a NaN has no close entry, so a store that
holds one is not even found to have its own contents.
-/
namespace IndexedStore.Store

variable {a b c s : Store}

/-- The entries of two stores can be paired, one with one, close entries with each other. -/
def Paired (a b : Store) : Prop :=
  Multiset.Rel (fun x y => x.isClose y = true) a.contents b.contents

def DoubleFree (s : Store) : Prop := ∀ e ∈ s.contents, e.hasDouble = false

instance (s : Store) : Decidable s.DoubleFree :=
  inferInstanceAs (Decidable (∀ e ∈ s.contents, e.hasDouble = false))

/-! ## The verdict -/

section Verdict

variable (ha : a.Invariant) (hb : b.Invariant)
include ha hb

theorem fits_iff : a.fits b = true ↔
    a.entries.length = b.entries.length ∧ firstFit Entry.isClose a.entries b.entries = true := by
  rw [fits, Bool.and_eq_true, decide_eq_true_eq, ha.length_entries, hb.length_entries]

theorem fits_comm : b.fits a = a.fits b := by
  have hflip : flip Entry.isClose = Entry.isClose := by
    funext x y
    exact Entry.isClose_comm y x
  rw [Bool.eq_iff_iff, fits_iff hb ha, fits_iff ha hb, eq_comm]
  refine and_congr_right fun hlength => ?_
  rw [← firstFit_flip hlength, hflip]

theorem paired_of_fits (h : a.fits b = true) : a.Paired b := by
  obtain ⟨hlength, hmatch⟩ := (fits_iff ha hb).1 h
  rw [Paired, ← ha.coe_entries, ← hb.coe_entries]
  exact rel_of_firstFit hmatch hlength

/-- There is a pairing exactly if the entries find a first fit in some order of the other store. -/
theorem paired_iff_exists_order : a.Paired b ↔ a.size = b.size ∧ ∃ order : List Entry,
    order.Perm b.entries ∧ firstFit Entry.isClose a.entries order = true := by
  rw [Paired, ← ha.coe_entries, ← hb.coe_entries, ← ha.length_entries, ← hb.length_entries]
  refine ⟨fun h => ⟨Multiset.card_eq_card_of_rel h, exists_perm_firstFit h⟩, ?_⟩
  rintro ⟨hlength, order, hperm, hmatch⟩
  rw [← Multiset.coe_eq_coe.2 hperm]
  exact rel_of_firstFit hmatch (hlength.trans hperm.length_eq.symm)

/-- If entries that share a close entry share them all, the verdict is whether there is a
pairing. -/
theorem fits_iff_paired (hd : Difunctional Entry.isClose a.contents b.contents) :
    a.fits b = true ↔ a.Paired b := by
  refine ⟨paired_of_fits ha hb, fun hpaired => (fits_iff ha hb).2 ?_⟩
  rw [Paired, ← ha.coe_entries, ← hb.coe_entries] at hpaired
  rw [← ha.coe_entries, ← hb.coe_entries] at hd
  exact ⟨Multiset.card_eq_card_of_rel hpaired, hd.firstFit_of_rel hpaired⟩

theorem DoubleFree.isClose_iff (hd : a.DoubleFree) (hshape : a.shape = b.shape) {x y : Entry}
    (hx : x ∈ a.contents) (hy : y ∈ b.contents) : x.isClose y = true ↔ x = y :=
  Entry.isClose_iff_eq (ha.conforms_of_mem hx) (hshape ▸ hb.conforms_of_mem hy) (hd x hx)

theorem DoubleFree.paired_iff (hd : a.DoubleFree) (hshape : a.shape = b.shape) :
    a.Paired b ↔ a.contents = b.contents := by
  have hclose {x y : Entry} (hx : x ∈ a.contents) (hy : y ∈ b.contents) :=
    hd.isClose_iff ha hb hshape hx hy
  rw [← Multiset.rel_eq, Paired]
  exact ⟨fun h => h.mono fun x hx y hy => (hclose hx hy).1,
    fun h => h.mono fun x hx y hy => (hclose hx hy).2⟩

theorem DoubleFree.fits_iff_contents (hd : a.DoubleFree) (hshape : a.shape = b.shape) :
    a.fits b = true ↔ a.contents = b.contents := by
  refine (fits_iff_paired ha hb ?_).trans (hd.paired_iff ha hb hshape)
  intro x hx x' hx' y hy y' _ hclose
  rw [Bool.and_eq_true, Bool.and_eq_true] at hclose
  obtain ⟨⟨hxy, hxy'⟩, hclose⟩ := hclose
  obtain rfl := (hd.isClose_iff ha hb hshape hx hy).1 hxy
  obtain rfl := (hd.isClose_iff ha hb hshape hx' hy).1 hxy'
  exact hclose

theorem DoubleFree.sameContents_eq (hd : a.DoubleFree) (hshape : a.shape = b.shape) :
    a.sameContents b = .ok (decide (a.contents = b.contents)) := by
  rw [Store.sameContents_eq ha hb hshape, Except.ok.injEq, Bool.eq_iff_iff, decide_eq_true_eq]
  exact hd.fits_iff_contents ha hb hshape

theorem DoubleFree.sameContents_eq_true_iff (hd : a.DoubleFree) (hshape : a.shape = b.shape) :
    a.sameContents b = .ok true ↔ a.contents = b.contents := by
  rw [hd.sameContents_eq ha hb hshape, Except.ok.injEq, decide_eq_true_eq]

end Verdict

theorem fits_self_iff (hs : s.Invariant) :
    s.fits s = true ↔ ∀ e ∈ s.contents, e.isFinite = true := by
  rw [fits_iff hs hs]
  refine ⟨fun ⟨_, hmatch⟩ e he => ?_, fun hfinite => ⟨rfl, firstFit_self fun e he => ?_⟩⟩
  · obtain ⟨y, hy, hclose⟩ := exists_fit_of_firstFit hmatch rfl (hs.mem_entries_iff.2 he)
    have hconform := hs.conforms_of_mem (hs.mem_entries_iff.1 hy)
    exact Entry.isFinite_of_isClose (hs.conforms_of_mem he) hconform hclose
  · rw [Entry.isClose_self]
    exact hfinite e (hs.mem_entries_iff.1 he)

/-! ## Filled stores -/

def filled? (shape : Shape) (descriptors : List Descriptor) (entries : List Entry) :
    Option Store :=
  match create shape descriptors with
  | .ok s => (run (entries.map .insert) s).toOption
  | .error _ => none

theorem Reachable.of_filled {shape : Shape} {descriptors : List Descriptor} {entries : List Entry}
    (h : filled? shape descriptors entries = some s) (ht : ∀ e ∈ entries, e.Typed)
    (hroom : entries.length ≤ UInt32.size) : s.Reachable := by
  rw [filled?] at h
  split at h
  next fresh hfresh =>
    cases hrun : Store.run (entries.map .insert) fresh with
    | error fault => rw [hrun] at h; cases h
    | ok t =>
      rw [hrun] at h
      obtain rfl : t = s := Option.some.inj h
      exact .filled hfresh ht hroom hrun
  next => cases h

/-! ## Stores without doubles -/

/-- Two stores of one shape without set doubles, whatever their indices, compare as their contents
do. So the comparison of such stores is reflexive, symmetric and transitive. -/
theorem sameContents_of_doubleFree (ha : a.Reachable) (hb : b.Reachable) (hc : c.Reachable)
    (hab : a.shape = b.shape) (hbc : b.shape = c.shape) (hda : a.DoubleFree)
    (hdb : b.DoubleFree) :
    a.sameContents b = .ok (decide (a.contents = b.contents)) ∧
      a.sameContents a = .ok true ∧ b.sameContents a = a.sameContents b ∧
      (a.sameContents b = .ok true → b.sameContents c = .ok true → a.sameContents c = .ok true) := by
  have ha := ha.invariant
  have hb := hb.invariant
  have hc := hc.invariant
  have hac := hab.trans hbc
  refine ⟨hda.sameContents_eq ha hb hab, ?_, ?_, fun heq heq' => ?_⟩
  · rw [hda.sameContents_eq_true_iff ha ha rfl]
  · rw [hda.sameContents_eq ha hb hab, hdb.sameContents_eq hb ha hab.symm,
      decide_eq_decide.2 eq_comm]
  · rw [hda.sameContents_eq_true_iff ha hb hab] at heq
    rw [hdb.sameContents_eq_true_iff hb hc hbc] at heq'
    exact (hda.sameContents_eq_true_iff ha hc hac).2 (heq.trans heq')

def openRows : List Entry := [samplePair 1 10, sampleOpen 1, samplePair 2 10, sampleOpen 1]

/-- The same four entries under a list, a tree and chains, in three orders. -/
theorem sameContents_of_doubleFree_of_open_pairs : ∃ a b c, Reachable a ∧ Reachable b ∧
    Reachable c ∧ a.shape = b.shape ∧ b.shape = c.shape ∧ a.DoubleFree ∧ b.DoubleFree ∧
    a.entries ≠ b.entries ∧ b.entries ≠ c.entries ∧
    a.sameContents b = .ok (decide (a.contents = b.contents)) ∧
    a.sameContents a = .ok true ∧ b.sameContents a = a.sameContents b ∧
    (a.sameContents b = .ok true → b.sameContents c = .ok true → a.sameContents c = .ok true) ∧
    a.sameContents b = .ok true ∧ b.sameContents c = .ok true := by
  obtain ⟨a, ha⟩ : ∃ a, filled? ⟨[.int, .int]⟩ [.ofForm (.list [])] openRows = some a := ⟨_, rfl⟩
  obtain ⟨b, hb⟩ : ∃ b, filled? ⟨[.int, .int]⟩ [.ofForm (.tree [2, 1] false)] openRows = some b :=
    ⟨_, rfl⟩
  obtain ⟨c, hc⟩ : ∃ c, filled? ⟨[.int, .int]⟩ [.ofForm (.hash [2] false)] openRows.reverse =
    some c := ⟨_, rfl⟩
  have hra := Reachable.of_filled ha (by decide) (by decide)
  have hrb := Reachable.of_filled hb (by decide) (by decide)
  have hrc := Reachable.of_filled hc (by decide) (by decide)
  have hfacts : a.shape = b.shape ∧ b.shape = c.shape ∧ a.DoubleFree ∧ b.DoubleFree ∧
      a.entries ≠ b.entries ∧ b.entries ≠ c.entries ∧
      a.sameContents b = .ok true ∧ b.sameContents c = .ok true := by
    obtain rfl := Option.some.inj ha
    obtain rfl := Option.some.inj hb
    obtain rfl := Option.some.inj hc
    decide +kernel
  obtain ⟨hab, hbc, hda, hdb, hne, hne', heq, heq'⟩ := hfacts
  obtain ⟨hverdict, hrefl, hsymm, htrans⟩ :=
    sameContents_of_doubleFree hra hrb hrc hab hbc hda hdb
  exact ⟨a, b, c, hra, hrb, hrc, hab, hbc, hda, hdb, hne, hne', hverdict, hrefl, hsymm, htrans,
    heq, heq'⟩

/-! ## Stores with doubles -/

/-- The comparison of two stores always answers, and answers the same from either side. The answer
is yes only if there is a pairing of their entries. If there is one, the answer is yes for some
order of the entries; and it is yes for the order they have, provided that entries that share a
close entry share them all. -/
theorem sameContents_pairing (ha : a.Reachable) (hb : b.Reachable) (hshape : a.shape = b.shape) :
    a.sameContents b = .ok (a.fits b) ∧ b.sameContents a = .ok (a.fits b) ∧
      (a.fits b = true → a.Paired b) ∧
      (a.Paired b ↔ a.size = b.size ∧ ∃ order : List Entry,
        order.Perm b.entries ∧ firstFit Entry.isClose a.entries order = true) ∧
      (Difunctional Entry.isClose a.contents b.contents → (a.fits b = true ↔ a.Paired b)) := by
  have ha := ha.invariant
  have hb := hb.invariant
  refine ⟨sameContents_eq ha hb hshape, ?_, paired_of_fits ha hb, paired_iff_exists_order ha hb,
    fits_iff_paired ha hb⟩
  rw [sameContents_eq hb ha hshape.symm, fits_comm ha hb]

def sampleDouble (bits : UInt64) : Entry := ⟨⟨[.double]⟩, [.double ⟨bits⟩]⟩

def apartRows : List Entry := [sampleDouble 0x4024000000000000, sampleDouble 0x4034000000000000]

def apartRows' : List Entry := [sampleDouble 0x4034010624dd2f1b, sampleDouble 0x4024028f5c28f5c3]

/-- Entries far apart are paired through indices on the double, a tree and chains. -/
theorem sameContents_pairing_of_apart : ∃ a b, Reachable a ∧ Reachable b ∧ a.shape = b.shape ∧
    Difunctional Entry.isClose a.contents b.contents ∧ a.fits b = true ∧
    a.sameContents b = .ok (a.fits b) ∧ b.sameContents a = .ok (a.fits b) ∧ a.Paired b := by
  obtain ⟨a, ha⟩ : ∃ a, filled? ⟨[.double]⟩ [.ofForm (.tree [1] false)] apartRows = some a :=
    ⟨_, rfl⟩
  obtain ⟨b, hb⟩ : ∃ b, filled? ⟨[.double]⟩ [.ofForm (.hash [1] true)] apartRows' = some b :=
    ⟨_, rfl⟩
  have hra := Reachable.of_filled ha (by decide) (by decide)
  have hrb := Reachable.of_filled hb (by decide) (by decide)
  have hfacts : a.shape = b.shape ∧ Difunctional Entry.isClose a.contents b.contents ∧
      a.fits b = true := by
    obtain rfl := Option.some.inj ha
    obtain rfl := Option.some.inj hb
    decide +kernel
  obtain ⟨hshape, hd, hfits⟩ := hfacts
  obtain ⟨hverdict, hverdict', -, -, hiff⟩ := sameContents_pairing hra hrb hshape
  exact ⟨a, b, hra, hrb, hshape, hd, hfits, hverdict, hverdict', (hiff hd).1 hfits⟩

def spreadRows : List Entry := [sampleDouble 0x3f889374bc6a7efa, sampleDouble 0]

def middleRows : List Entry := [sampleDouble 0x3f747ae147ae147b, sampleDouble 0]

/-- Five thousandths take the zero that comes first, and leave twelve thousandths to a zero that is
not close to them. If the twelve come first, both find an entry. -/
theorem sameContents_of_order : ∃ a b c, Reachable a ∧ Reachable b ∧ Reachable c ∧
    a.shape = b.shape ∧ b.shape = c.shape ∧ b.contents = c.contents ∧ a.Paired b ∧
    a.sameContents b = .ok false ∧ a.sameContents c = .ok true := by
  obtain ⟨a, ha⟩ : ∃ a, filled? ⟨[.double]⟩ [.ofForm (.list [])] middleRows = some a := ⟨_, rfl⟩
  obtain ⟨b, hb⟩ : ∃ b, filled? ⟨[.double]⟩ [.ofForm (.list [])] spreadRows.reverse = some b :=
    ⟨_, rfl⟩
  obtain ⟨c, hc⟩ : ∃ c, filled? ⟨[.double]⟩ [.ofForm (.list [])] spreadRows = some c := ⟨_, rfl⟩
  have hra := Reachable.of_filled ha (by decide) (by decide)
  have hrb := Reachable.of_filled hb (by decide) (by decide)
  have hrc := Reachable.of_filled hc (by decide) (by decide)
  have hfacts : (a.shape = b.shape ∧ b.shape = c.shape) ∧ b.contents = c.contents ∧
      a.fits c = true ∧ a.sameContents b = .ok false ∧ a.sameContents c = .ok true := by
    obtain rfl := Option.some.inj ha
    obtain rfl := Option.some.inj hb
    obtain rfl := Option.some.inj hc
    decide +kernel
  obtain ⟨⟨hab, hbc⟩, hcontents, hfits, hverdict, hverdict'⟩ := hfacts
  have hpaired : a.Paired b := by
    rw [Paired, hcontents]
    exact paired_of_fits hra.invariant hrc.invariant hfits
  exact ⟨a, b, c, hra, hrb, hrc, hab, hbc, hcontents, hpaired, hverdict, hverdict'⟩

/-! ## Infinities and NaNs -/

/-- A value or an entry is close to what it is the same as unless it has an infinity or a NaN, and a
store is found to have its own contents unless one of its entries has. -/
theorem close_of_same_iff_isFinite {v w : Value} {x y : Entry} (hvalues : v.same w = true)
    (hentries : x.same y = true) (hr : s.Reachable) :
    (v.isClose w = true ↔ v.isFinite = true) ∧ (x.isClose y = true ↔ x.isFinite = true) ∧
      s.sameContents s = .ok (decide (∀ e ∈ s.contents, e.isFinite = true)) := by
  refine ⟨?_, ?_, ?_⟩
  · rw [Value.isClose_eq_isFinite hvalues]
  · rw [Entry.isClose_eq_isFinite hentries]
  · have hs := hr.invariant
    rw [sameContents_eq hs hs rfl, Except.ok.injEq, Bool.eq_iff_iff, decide_eq_true_eq]
    exact fits_self_iff hs

def zeroRows : List Entry :=
  [sampleDouble 0, sampleDouble 0x8000000000000000, sampleDouble 0x3f747ae147ae147b]

/-- The two zeros are the same, though not one double, and so they are close. -/
theorem close_of_same_iff_isFinite_of_zeros : ∃ s,
    (Value.double ⟨0⟩).same (.double ⟨0x8000000000000000⟩) = true ∧
    (sampleDouble 0).same (sampleDouble 0x8000000000000000) = true ∧ Reachable s ∧ s.size = 3 ∧
    (Value.double ⟨0⟩).isClose (.double ⟨0x8000000000000000⟩) = true ∧
    (sampleDouble 0).isClose (sampleDouble 0x8000000000000000) = true ∧
    s.sameContents s = .ok true := by
  obtain ⟨s, hs⟩ : ∃ s, filled? ⟨[.double]⟩ [.ofForm (.tree [1] false)] zeroRows = some s :=
    ⟨_, rfl⟩
  have hr := Reachable.of_filled hs (by decide) (by decide)
  have hvalues : (Value.double ⟨0⟩).same (.double ⟨0x8000000000000000⟩) = true := by decide
  have hentries : (sampleDouble 0).same (sampleDouble 0x8000000000000000) = true := by decide
  obtain ⟨hvalue, hentry, hstore⟩ := close_of_same_iff_isFinite hvalues hentries hr
  have hfacts : s.size = 3 ∧ ∀ e ∈ s.contents, e.isFinite = true := by
    obtain rfl := Option.some.inj hs
    decide +kernel
  obtain ⟨hsize, hfinite⟩ := hfacts
  rw [decide_eq_true hfinite] at hstore
  exact ⟨s, hvalues, hentries, hr, hsize, hvalue.2 (by decide), hentry.2 (by decide), hstore⟩

def sampleNaN : Entry := sampleDouble 0x7ff8000000000000

def sampleInfinity : Entry := sampleDouble 0x7ff0000000000000

/-- A NaN and an infinity are the same as themselves and not close to themselves, and a store that
holds one of them is not found to have its own contents. -/
theorem not_close_of_same :
    ((Value.double ⟨0x7ff8000000000000⟩).same (.double ⟨0x7ff8000000000000⟩) = true ∧
      (Value.double ⟨0x7ff8000000000000⟩).isClose (.double ⟨0x7ff8000000000000⟩) = false) ∧
    (sampleInfinity.same sampleInfinity = true ∧ sampleInfinity.isClose sampleInfinity = false) ∧
    ∃ s t, Reachable s ∧ Reachable t ∧ s.contents = {sampleNaN} ∧ t.contents = {sampleInfinity} ∧
      s.sameContents s = .ok false ∧ t.sameContents t = .ok false := by
  obtain ⟨s, hs⟩ : ∃ s, filled? ⟨[.double]⟩ [.ofForm (.list [])] [sampleNaN] = some s := ⟨_, rfl⟩
  obtain ⟨t, ht⟩ : ∃ t, filled? ⟨[.double]⟩ [.ofForm (.list [])] [sampleInfinity] = some t :=
    ⟨_, rfl⟩
  have hrs := Reachable.of_filled hs (by decide) (by decide)
  have hrt := Reachable.of_filled ht (by decide) (by decide)
  refine ⟨by decide, by decide, s, t, hrs, hrt, ?_⟩
  obtain rfl := Option.some.inj hs
  obtain rfl := Option.some.inj ht
  decide +kernel

end IndexedStore.Store
