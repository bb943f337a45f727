import IndexedStore.Proofs.KeyFields
import IndexedStore.Proofs.Placements

/-!
# What indices permit

An index permits an entry beside others if the entry lies on its axes and, should the index be
unique, no other one has its key. A placement succeeds exactly if every index permits the entry;
otherwise the error is the one that the first index that does not permit it reports.
-/
namespace IndexedStore

namespace Descriptor

variable {shape : Shape} {others : Source} {slot : Nat} {d : Descriptor} {e : Entry}

/-- Whether an entry lies on all axes of an index, with no position of an axis unset. -/
def Inside (d : Descriptor) (e : Entry) : Prop := ∀ axis ∈ d.axes, axis.Holds (e.field axis.position)

structure Permits (shape : Shape) (others : Source) (e : Entry) (d : Descriptor) : Prop where
  inside : d.Inside e
  unrivalled : d.isUnique = true → ∀ k other, others k = some other →
    ¬ e.Level (d.keyFields shape) other

theorem Permits.mono {fewer : Source} (hp : d.Permits shape others e)
    (hfewer : ∀ k other, fewer k = some other → others k = some other) :
    d.Permits shape fewer e :=
  ⟨hp.inside, fun hu k other hk => hp.unrivalled hu k other (hfewer k other hk)⟩

/-- What the index at a slot reports of an entry that it does not permit. -/
inductive Reports (shape : Shape) (slot : Nat) (e : Entry) (d : Descriptor) : Error → Prop
  | outside : ¬ d.Inside e → Reports shape slot e d
      (.keyOutOfBounds slot ((d.keyFields shape).map e.field))
  | rivalled : d.Inside e → Reports shape slot e d
      (.duplicateKey slot ((d.keyFields shape).map e.field))

theorem Reports.unique {a b : Error} (ha : d.Reports shape slot e a)
    (hb : d.Reports shape slot e b) : a = b := by
  cases ha with
  | outside hout =>
    cases hb with
    | outside => rfl
    | rivalled hin => exact absurd hin hout
  | rivalled hin =>
    cases hb with
    | outside hout => exact absurd hin hout
    | rivalled => rfl

theorem permits_of_not_unique (hu : d.isUnique = false) : d.Permits shape others e := by
  refine ⟨fun axis haxis => ?_, fun hunique => by simp [hu] at hunique⟩
  rw [axes] at haxis
  rw [isUnique] at hu
  split at haxis
  next hform => simp [hform] at hu
  next => cases haxis

end Descriptor

namespace Index

def axes : Index → List Axis
  | .array g => g.axes
  | .list _ | .hash _ | .tree _ | .heap _ => []

theorem outOfBounds_iff {i : Index} {source : Source} {h : Handle} {e : Entry} {why : Rejection}
    (hfit : i.projection.Fits e) (hadd : i.add source h e = .ok (.error why)) :
    why = .outOfBounds ↔ ¬ i.InBounds e := by
  cases i with
  | list l => cases hadd
  | heap g =>
    obtain ⟨_, _, hadd⟩ := Checked.bind_eq_ok.1 hadd
    cases hadd
  | hash c =>
    obtain ⟨result, hresult, hadd⟩ := Checked.bind_eq_ok.1 hadd
    cases result with
    | ok c' => cases hadd
    | error why =>
      obtain ⟨holder, rfl⟩ := HashChains.duplicateKey_of_refused hfit hresult
      obtain rfl := Except.error.inj (Except.ok.inj hadd)
      exact iff_of_false Rejection.noConfusion (not_not_intro trivial)
  | tree r =>
    obtain ⟨result, hresult, hadd⟩ := Checked.bind_eq_ok.1 hadd
    cases result with
    | ok r' => cases hadd
    | error why =>
      obtain ⟨holder, rfl⟩ := KeyRows.duplicateKey_of_refused hfit hresult
      obtain rfl := Except.error.inj (Except.ok.inj hadd)
      exact iff_of_false Rejection.noConfusion (not_not_intro trivial)
  | array g =>
    obtain ⟨result, hresult, hadd⟩ := Checked.bind_eq_ok.1 hadd
    cases result with
    | ok g' => cases hadd
    | error why =>
      obtain rfl := Except.error.inj (Except.ok.inj hadd)
      rw [AddressGrid.outOfBounds_iff_of_refused hfit hresult, InBounds,
        ← Option.isSome_iff_exists, Option.not_isSome_iff_eq_none]

end Index

namespace Declared.Stands

variable {shape : Shape} {others : Source} {slot : Nat} {d : Declared} {h : Handle} {e : Entry}
  (hd : d.Stands shape)
include hd

theorem axes_eq : d.index.axes = d.descriptor.axes := by
  have hblank (i : Index) : i.blank.axes = i.axes := by cases i <;> rfl
  have hbuilt := hd.built
  rw [Index.ofDescriptor] at hbuilt
  obtain ⟨π, _, hindex⟩ := Checked.bind_eq_ok.1 hbuilt
  rw [Checked.pure_eq_ok, Except.ok.injEq] at hindex
  rw [← hblank, ← hindex, Descriptor.axes]
  cases d.descriptor.form <;> rfl

theorem inBounds_iff : d.index.InBounds e ↔ d.descriptor.Inside e := by
  have haxes := hd.axes_eq
  have hkey := hd.keyOf_eq e
  cases hi : d.index with
  | array g =>
    rw [hi] at haxes hkey
    have haxes : g.axes = d.descriptor.axes := haxes
    have hkey : g.projection.keyOf e = (d.descriptor.keyFields shape).map e.field := hkey
    have hspanned := hd.fields.spanned
    have hcounted := hd.fields.counted
    rw [← haxes] at hspanned hcounted
    have hfields : d.descriptor.fields = g.axes.map Axis.position := by
      have hkind := hd.describes.1
      rw [hi, Descriptor.kind] at hkind
      rw [haxes, Descriptor.fields, Descriptor.axes]
      cases hform : d.descriptor.form <;> simp_all [Index.kind]
    have hzip : (g.projection.keyOf e).zip g.axes =
        g.axes.map fun axis => (e.field axis.position, axis) := by
      have hpairs : ((g.axes.map fun axis => e.field axis.position).zip (g.axes.map id)) =
          g.axes.map fun axis => (e.field axis.position, axis) := List.zip_map'
      rw [List.map_id] at hpairs
      rw [hkey, Descriptor.keyFields, hfields]
      cases haxes : g.axes with
      | nil => simp
      | cons axis rest => simpa [haxes, Function.comp_def] using hpairs
    rw [Index.InBounds, AddressGrid.addressOf,
      if_neg (AddressGrid.capacity_ne_zero hspanned hcounted), ← Option.isSome_iff_exists,
      AddressGrid.isSome_stepAll_iff, hzip, List.forall_mem_map, Descriptor.Inside, haxes]
  | list | hash | tree | heap =>
    rw [hi] at haxes
    rw [Descriptor.Inside, ← haxes]
    simp [Index.InBounds, Index.axes]

theorem admits_iff (hh : others h = none) :
    d.index.Admits others h e ↔ d.descriptor.Permits shape others e := by
  obtain ⟨_, hunique, _⟩ := hd.describes
  constructor
  · rintro ⟨hin, hrival⟩
    refine ⟨hd.inBounds_iff.1 hin, fun hu k other ho level => ?_⟩
    have hk : k ≠ h := by
      rintro rfl
      cases hh.symm.trans ho
    exact hrival (hunique.trans hu) k hk other ho (hd.compare_keyOf_iff.2 level)
  · rintro ⟨hin, hrival⟩
    exact ⟨hd.inBounds_iff.2 hin, fun hu k _ other ho level =>
      hrival (hunique.symm.trans hu) k other ho (hd.compare_keyOf_iff.1 level)⟩

/-- An index that does not take an entry reports whether the entry is out of its bounds. -/
theorem reports_of_error (he : e.Conforms shape) {after : Source} {why : Rejection} {err : Error}
    (hadd : d.index.add after h e = .ok (.error why)) (herror : d.error slot e why = .ok err) :
    d.descriptor.Reports shape slot e err := by
  have hwhy := Index.outOfBounds_iff (hd.reads.fits he) hadd
  rw [error, hd.reportedKey_eq he, Checked.ok_bind, hd.keyOf_eq] at herror
  obtain rfl := Except.ok.inj herror
  cases why with
  | outOfBounds => exact .outside fun hin => hwhy.1 rfl (hd.inBounds_iff.2 hin)
  | duplicateKey holder =>
    refine .rivalled (hd.inBounds_iff.1 ?_)
    by_contra hout
    cases hwhy.2 hout

end Declared.Stands

namespace Store

variable {shape : Shape} {others after : Source} {h : Handle} {e : Entry}

/-! ## Placements -/

/-- An index of a description that is marked to take an entry holds the others, and one that is not
permits the entry. -/
structure Awaits (shape : Shape) (others : Source) (e : Entry) (d : Descriptor)
    (m : Bool × Declared) : Prop where
  descriptor : m.2.descriptor = d
  stands : m.2.Stands shape
  sound : m.1 = true → m.2.index.Sound others
  stays : m.1 = false → d.Permits shape others e

/-- What a placement from some slot on decides: every index permits the entry, or the first that does
not reports it. -/
def Decides (shape : Shape) (others : Source) (e : Entry) (slot : Nat) (ds : List Descriptor) :
    Option Error → Prop
  | none => ∀ d ∈ ds, d.Permits shape others e
  | some err => ∃ before d rest, ds = before ++ d :: rest ∧
      (∀ d ∈ before, d.Permits shape others e) ∧ ¬ d.Permits shape others e ∧
      d.Reports shape (slot + before.length) e err

theorem Decides.cons {d : Descriptor} {ds : List Descriptor} {slot : Nat} {refusal : Option Error}
    (hd : d.Permits shape others e) (h : Decides shape others e (slot + 1) ds refusal) :
    Decides shape others e slot (d :: ds) refusal := by
  cases refusal with
  | none => exact List.forall_mem_cons.2 ⟨hd, h⟩
  | some err =>
    obtain ⟨before, first, rest, rfl, hbefore, hfirst, hreports⟩ := h
    refine ⟨d :: before, first, rest, rfl, List.forall_mem_cons.2 ⟨hd, hbefore⟩, hfirst, ?_⟩
    rwa [List.length_cons, Nat.add_comm before.length, ← Nat.add_assoc]

theorem Decides.cases_cons {d : Descriptor} {ds : List Descriptor} {slot : Nat}
    {refusal : Option Error} (h : Decides shape others e slot (d :: ds) refusal) :
    d.Permits shape others e ∧ Decides shape others e (slot + 1) ds refusal ∨
      ¬ d.Permits shape others e ∧ ∃ err, refusal = some err ∧ d.Reports shape slot e err := by
  cases refusal with
  | none => exact .inl (List.forall_mem_cons.1 h)
  | some err =>
    obtain ⟨before, first, rest, heq, hbefore, hfirst, hreports⟩ := h
    cases before with
    | nil =>
      obtain ⟨rfl, -⟩ := List.cons.inj heq
      exact .inr ⟨hfirst, err, rfl, hreports⟩
    | cons d' before =>
      obtain ⟨rfl, rfl⟩ := List.cons.inj heq
      obtain ⟨hd, hbefore⟩ := List.forall_mem_cons.1 hbefore
      rw [List.length_cons, Nat.add_comm before.length, ← Nat.add_assoc] at hreports
      exact .inl ⟨hd, before, first, rest, rfl, hbefore, hfirst, hreports⟩

theorem Decides.unique {ds : List Descriptor} {slot : Nat} {a b : Option Error}
    (ha : Decides shape others e slot ds a) (hb : Decides shape others e slot ds b) : a = b := by
  induction ds generalizing slot with
  | nil =>
    have hnone {r : Option Error} (hr : Decides shape others e slot [] r) : r = none := by
      cases r with
      | none => rfl
      | some err =>
        obtain ⟨before, d, rest, heq, _⟩ := hr
        simp at heq
    rw [hnone ha, hnone hb]
  | cons d ds ih =>
    obtain ⟨hd, ha⟩ | ⟨hd, err, rfl, hreports⟩ := ha.cases_cons
    · obtain ⟨_, hb⟩ | ⟨hd', _⟩ := hb.cases_cons
      · exact ih ha hb
      · exact absurd hd hd'
    · obtain ⟨hd', _⟩ | ⟨_, err', rfl, hreports'⟩ := hb.cases_cons
      · exact absurd hd' hd
      · rw [hreports.unique hreports']

theorem Decides.append {ds extra : List Descriptor} {slot : Nat} {refusal : Option Error}
    (h : Decides shape others e slot ds refusal)
    (hextra : ∀ d ∈ extra, d.Permits shape others e) :
    Decides shape others e slot (ds ++ extra) refusal := by
  cases refusal with
  | none => exact List.forall_mem_append.2 ⟨h, hextra⟩
  | some err =>
    obtain ⟨before, d, rest, rfl, hbefore, hd, hreports⟩ := h
    exact ⟨before, d, rest ++ extra, by simp, hbefore, hd, hreports⟩

/-- A placement beside others is refused by the first index that does not permit the entry. -/
theorem place_decides (hothers : others.Conforms shape) (hh : others h = none)
    (he : e.Conforms shape) (hafter : ∀ k ≠ h, after k = others k) {ds : List Descriptor}
    {marked : Marked} (hall : List.Forall₂ (Awaits shape others e) ds marked) {slot : Nat}
    {refusal : Option Error} {placed : List Declared}
    (hplace : place after h e slot marked = .ok (refusal, placed)) :
    Decides shape others e slot ds refusal := by
  induction hall generalizing slot refusal placed with
  | nil =>
    obtain ⟨rfl, -⟩ := Prod.mk.inj (Except.ok.inj hplace)
    exact fun d hd => by cases hd
  | @cons d m ds marked hm _ ih =>
    obtain ⟨rfl, hstands, hsound, hstays⟩ := hm
    obtain ⟨mark, d⟩ := m
    cases mark with
    | false =>
      obtain ⟨⟨refusal', placed'⟩, hrest, hplace⟩ := Checked.bind_eq_ok.1 hplace
      obtain ⟨rfl, -⟩ := Prod.mk.inj (Except.ok.inj hplace)
      exact (ih hrest).cons (hstays rfl)
    | true =>
      have hi := hsound rfl
      obtain ⟨result, hadd, hresult⟩ :=
        hi.add hstands.reads hothers hh he (hi.eqOn_handles hh hafter)
      rw [place, hadd, Checked.ok_bind] at hplace
      cases result with
      | error why =>
        obtain ⟨err, herror, hplace⟩ := Checked.bind_eq_ok.1 hplace
        obtain ⟨rfl, -⟩ := Prod.mk.inj (Except.ok.inj hplace)
        exact ⟨[], d.descriptor, ds, rfl, by simp, fun hd => hresult ((hstands.admits_iff hh).2 hd),
          hstands.reports_of_error he hadd herror⟩
      | ok j =>
        obtain ⟨⟨refusal', placed'⟩, hrest, hplace⟩ := Checked.bind_eq_ok.1 hplace
        have hrefusal : refusal' = refusal := by
          dsimp only at hplace
          split at hplace <;> obtain ⟨index, _, hplace⟩ := Checked.bind_eq_ok.1 hplace <;>
            exact (Prod.mk.inj (Except.ok.inj hplace)).1
        subst hrefusal
        exact (ih hrest).cons ((hstands.admits_iff hh).1 hresult.1)

end Store
end IndexedStore
