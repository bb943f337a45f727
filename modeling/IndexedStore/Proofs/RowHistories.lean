import IndexedStore.Proofs.KindAgreement
import IndexedStore.Proofs.StableOrders

/-!
# Histories of key rows

Whatever has been added to key rows, removed from them and cleared away, a plain list tells what they
hold: the handles with their entries, in order of arrival. A lookup in the rows is a walk over this
list, sorted by key; the seek for the lead of a probe and the count of partial rows never show.
-/
namespace IndexedStore

namespace KeyRows

inductive Action where
  | add (h : Handle) (e : Entry)
  | remove (h : Handle) (e : Entry)
  | clear
  deriving DecidableEq, Repr

/-- One action. A refused addition leaves the rows as they are, and so does the removal of a handle
from a row where it does not stand. -/
def act (r : KeyRows) : Action → Checked KeyRows
  | .add h e => do return (← r.add h e).toOption.getD r
  | .remove h e => do return (← r.remove? h e).getD r
  | .clear => return r.clear

def actAll (r : KeyRows) (actions : List Action) : Checked KeyRows := actions.foldlM act r

end KeyRows

namespace Arrivals

def Meets (π : Projection) (e : Entry) (item : Handle × Entry) : Prop :=
  Key.compare (π.keyOf e) (π.keyOf item.2) = .eq

instance (π : Projection) (e : Entry) (item : Handle × Entry) : Decidable (Meets π e item) :=
  inferInstanceAs (Decidable (_ = _))

/-- What is held after an action. Under unique keys an entry is refused whose key is taken. -/
def act (π : Projection) (unique : Bool) (placed : Arrivals) : KeyRows.Action → Arrivals
  | .add h e => if unique = true ∧ ∃ item ∈ placed, Meets π e item then placed
    else placed ++ [(h, e)]
  | .remove h e => placed.filter fun item => ¬(item.1 = h ∧ Meets π e item)
  | .clear => []

def actAll (π : Projection) (unique : Bool) (actions : List KeyRows.Action) : Arrivals :=
  actions.foldl (act π unique) []

def Takes (shape : Shape) (placed : Arrivals) : KeyRows.Action → Prop
  | .add h e => e.Conforms shape ∧ h ∉ placed.handles
  | .remove _ e => e.Conforms shape
  | .clear => True

def Permits (shape : Shape) (π : Projection) (unique : Bool) :
    Arrivals → List KeyRows.Action → Prop
  | _, [] => True
  | placed, a :: rest =>
    Takes shape placed a ∧ Permits shape π unique (placed.act π unique a) rest

def inKeyOrder (π : Projection) (placed : Arrivals) : Arrivals :=
  StableOrder.arranged Key.compare (fun item => π.keyOf item.2) placed

/-- The handles whose keys pass a test, in order of the keys. -/
def walk (π : Projection) (placed : Arrivals) (test : Key → Bool) : List Handle :=
  handles ((placed.inKeyOrder π).filter fun item => test (π.keyOf item.2))

section Decidability

variable {shape : Shape} {π : Projection} {unique : Bool} {placed : Arrivals}

instance (a : KeyRows.Action) : Decidable (Takes shape placed a) :=
  match a with
  | .add _ _ => inferInstanceAs (Decidable (_ ∧ _))
  | .remove _ e => inferInstanceAs (Decidable (e.Conforms shape))
  | .clear => inferInstanceAs (Decidable True)

instance decidablePermits : (placed : Arrivals) → (actions : List KeyRows.Action) →
    Decidable (Permits shape π unique placed actions)
  | _, [] => inferInstanceAs (Decidable True)
  | placed, a :: rest =>
    have := decidablePermits (placed.act π unique a) rest
    inferInstanceAs (Decidable (Takes shape placed a ∧ _))

end Decidability

end Arrivals

namespace KeyRows

/-- Key rows hold what has arrived, in order of arrival under each key, and nothing else. -/
structure Holds (shape : Shape) (placed : Arrivals) (r : KeyRows) : Prop where
  inside : r.projection.Inside shape
  filed : r.Filed placed.known
  ordered : r.Ordered placed
  nodup : placed.handles.Nodup
  conforms : ∀ item ∈ placed, item.2.Conforms shape

namespace Holds

variable {shape : Shape} {placed : Arrivals} {r : KeyRows} {h : Handle} {e : Entry} {key : Key}
  {a : Action} {actions : List Action} {unique : Bool}

theorem empty {π : Projection} (hπ : π.Inside shape) (unique : Bool) :
    (KeyRows.empty π unique).Holds shape [] where
  inside := hπ
  filed := empty_filed π unique
  ordered _ := rfl
  nodup := List.nodup_nil
  conforms := by simp

theorem clear (hr : r.Holds shape placed) : r.clear.Holds shape [] where
  inside := hr.inside
  filed := clear_filed r
  ordered _ := rfl
  nodup := List.nodup_nil
  conforms := by simp

section Steps

variable (hr : r.Holds shape placed)
include hr

theorem mem_row_iff : h ∈ r.row key ↔
    ∃ e, (h, e) ∈ placed ∧ Key.compare (r.projection.keyOf e) key = .eq := by
  rw [hr.ordered, Arrivals.mem_under_iff]
  simp only [decide_eq_true_eq]

theorem mem_handles_iff : h ∈ r.handles ↔ h ∈ placed.handles := by
  rw [hr.filed.mem_handles_iff]
  constructor
  · rintro ⟨key, hh⟩
    obtain ⟨e, he, -⟩ := hr.mem_row_iff.1 hh
    exact List.mem_map_of_mem he
  · intro hh
    obtain ⟨⟨h, e⟩, he, rfl⟩ := List.mem_map.1 hh
    exact ⟨r.projection.keyOf e, hr.mem_row_iff.2 ⟨e, he, Std.ReflCmp.compare_self⟩⟩

theorem isSome_known_iff : h ∈ r.handles ↔ (placed.known h).isSome := by
  rw [hr.mem_handles_iff, ← not_iff_not, Option.not_isSome_iff_eq_none, Arrivals.known_eq_none_iff]

theorem rival?_eq_none_iff (hh : h ∉ placed.handles) : r.rival? h e = none ↔
    ¬(r.unique = true ∧ ∃ item ∈ placed, Arrivals.Meets r.projection e item) := by
  rw [hr.filed.rival?_eq_none_iff fun _ => hr.isSome_known_iff]
  push Not
  refine forall_congr' fun _ => ?_
  constructor
  · intro hnone item hi
    refine hnone item.1 ?_ item.2 (Arrivals.resolves_known hr.nodup item hi)
    rintro rfl
    exact hh (List.mem_map_of_mem hi)
  · intro hnone k _ other hk
    exact hnone (k, other) (Arrivals.mem_of_known hk)

theorem push (he : e.Conforms shape) (hh : h ∉ placed.handles) :
    (r.push (r.projection.keyOf e) h).Holds shape (placed ++ [(h, e)]) where
  inside := hr.inside
  filed := by
    rw [Arrivals.known_append hh]
    refine Filed.push (hr.filed.congr fun k hk x hx => ?_) (Function.update_self _ _ _)
      (hr.inside.fits he)
    have hne : k ≠ h := by
      rintro rfl
      exact hh (hr.mem_handles_iff.1 hk)
    refine ⟨x, by rw [Function.update_of_ne hne, hx], ?_, Std.ReflCmp.compare_self⟩
    exact hr.inside.fits (hr.conforms _ (Arrivals.mem_of_known hx))
  ordered := hr.ordered.push hr.filed
  nodup := by
    rw [Arrivals.handles, List.map_append]
    exact List.nodup_append_comm.1 (List.nodup_cons.2 ⟨hh, hr.nodup⟩)
  conforms := List.forall_mem_append.2 ⟨hr.conforms, List.forall_mem_singleton.2 he⟩

theorem pull (hh : h ∈ r.row key) :
    (r.pull key h).Holds shape (placed.filter fun item => item.1 ≠ h) := by
  have hordered : (r.pull key h).Ordered (placed.filter fun item => item.1 ≠ h) :=
    hr.ordered.pull hr.filed hr.nodup hh (e := .blank shape)
  have hkept : ∀ k ∈ (r.pull key h).handles, k ≠ h := by
    intro k hk
    obtain ⟨key', hrow⟩ := (hr.filed.pull hh).mem_handles_iff.1 hk
    rw [hordered, Arrivals.mem_under_iff] at hrow
    obtain ⟨x, hx, -⟩ := hrow
    simpa using List.of_mem_filter hx
  refine ⟨hr.inside, ?_, hordered, hr.nodup.sublist (List.filter_sublist.map _), fun item hi =>
    hr.conforms item (List.mem_of_mem_filter hi)⟩
  rw [Arrivals.known_remove]
  refine (hr.filed.pull hh).congr fun k hk x hx => ?_
  refine ⟨x, by rw [Function.update_of_ne (hkept k hk), hx], ?_, Std.ReflCmp.compare_self⟩
  exact hr.inside.fits (hr.conforms _ (Arrivals.mem_of_known hx))

end Steps

theorem filter_remove (hn : placed.handles.Nodup) {π : Projection} {x : Entry}
    (hx : (h, x) ∈ placed) (level : Arrivals.Meets π e (h, x)) :
    placed.act π unique (.remove h e) = placed.filter fun item => item.1 ≠ h := by
  refine List.filter_congr fun item hi => ?_
  have hmeets : item.1 = h → Arrivals.Meets π e item := by
    rintro rfl
    rwa [show item = (item.1, x) from Prod.ext rfl (Arrivals.eq_of_mem hn hi hx)]
  simpa [imp_not_comm] using hmeets

/-- One action keeps key rows holding what has arrived. -/
theorem act (hr : r.Holds shape placed) (ha : placed.Takes shape a) :
    ∃ r', r.act a = .ok r' ∧ r'.projection = r.projection ∧ r'.unique = r.unique ∧
      r'.Holds shape (placed.act r.projection r.unique a) := by
  cases a with
  | add h e =>
    obtain ⟨he, hh⟩ := ha
    rw [KeyRows.act, add_eq (hr.inside.fits he), Checked.ok_bind]
    have hrival := hr.rival?_eq_none_iff (e := e) hh
    cases hfound : r.rival? h e with
    | none =>
      refine ⟨_, rfl, rfl, rfl, ?_⟩
      rw [Arrivals.act, if_neg (hrival.1 hfound)]
      exact hr.push he hh
    | some rival =>
      refine ⟨_, rfl, rfl, rfl, ?_⟩
      rw [Arrivals.act, if_pos (by_contra fun hfree => by simp [hrival.2 hfree] at hfound)]
      exact hr
  | remove h e =>
    rw [KeyRows.act, hr.filed.remove?_eq (hr.inside.fits ha), Checked.ok_bind]
    by_cases hh : h ∈ r.row (r.projection.keyOf e)
    · obtain ⟨x, hx, level⟩ := hr.mem_row_iff.1 hh
      refine ⟨r.pull (r.projection.keyOf e) h, by rw [if_pos hh]; rfl, rfl, rfl, ?_⟩
      rw [filter_remove hr.nodup hx (Std.OrientedCmp.eq_symm level)]
      exact hr.pull hh
    · refine ⟨r, by rw [if_neg hh]; rfl, rfl, rfl, ?_⟩
      have hnone : placed.act r.projection r.unique (.remove h e) = placed := by
        refine List.filter_eq_self.2 fun item hi => ?_
        simp only [decide_eq_true_eq]
        rintro ⟨rfl, level⟩
        exact hh (hr.mem_row_iff.2 ⟨item.2, hi, Std.OrientedCmp.eq_symm level⟩)
      rw [hnone]
      exact hr
  | clear => exact ⟨r.clear, rfl, rfl, rfl, hr.clear⟩

/-- A history of actions leaves key rows with what has arrived. -/
theorem actAll (hr : r.Holds shape placed)
    (ha : placed.Permits shape r.projection r.unique actions) :
    ∃ r', r.actAll actions = .ok r' ∧ r'.projection = r.projection ∧ r'.unique = r.unique ∧
      r'.Holds shape (actions.foldl (Arrivals.act r.projection r.unique) placed) := by
  induction actions generalizing r placed with
  | nil => exact ⟨r, rfl, rfl, rfl, hr⟩
  | cons a rest ih =>
    obtain ⟨hfirst, hrest⟩ := ha
    obtain ⟨r₁, hact, hproj, huniq, hr₁⟩ := hr.act hfirst
    obtain ⟨r', hall, hproj', huniq', hr'⟩ := ih hr₁ (by rwa [hproj, huniq])
    rw [hproj, huniq] at hr'
    refine ⟨r', ?_, hproj'.trans hproj, huniq'.trans huniq, hr'⟩
    rw [KeyRows.actAll, List.foldlM_cons, hact]
    exact hall

/-! ## Walks -/

section Walks

variable (hr : r.Holds shape placed)
include hr

def itemsAt (π : Projection) (placed : Arrivals) (key : Key) : Arrivals :=
  StableOrder.levelWith Key.compare (fun item => π.keyOf item.2) key placed

theorem row_eq (key : Key) : r.row key = (itemsAt r.projection placed key).handles := by
  rw [hr.ordered, Arrivals.under, itemsAt, StableOrder.levelWith]
  congr 1
  refine List.filter_congr fun item _ => ?_
  rw [Bool.eq_iff_iff, decide_eq_true_eq, Ordering.isEq_iff_eq_eq]
  exact ⟨Std.OrientedCmp.eq_symm, Std.OrientedCmp.eq_symm⟩

theorem content_eq {row : Key × List Handle} (hrow : row ∈ r.rows) :
    row.2 = (itemsAt r.projection placed row.1).handles := by
  rw [← hr.row_eq, row_eq_listAt, OrderedTable.listAt_of_mem hr.filed.ascending hrow
    Std.ReflCmp.compare_self]

/-- Row by row, the items held stand in order of their keys. -/
theorem flatMap_itemsAt : (r.rows.flatMap fun row => itemsAt r.projection placed row.1) =
    placed.inKeyOrder r.projection := by
  have hkeys : (r.rows.map Prod.fst).Pairwise fun j k => Key.compare j k = .lt :=
    List.pairwise_map.2 hr.filed.ascending
  have hall : ∀ item ∈ placed, ∃ key ∈ r.rows.map Prod.fst,
      Key.compare (r.projection.keyOf item.2) key = .eq := by
    intro item hi
    have hrow : item.1 ∈ r.row (r.projection.keyOf item.2) :=
      hr.mem_row_iff.2 ⟨item.2, hi, Std.ReflCmp.compare_self⟩
    obtain ⟨row, hm, level, -⟩ := OrderedTable.exists_of_mem_listAt hr.filed.ascending hrow
    exact ⟨row.1, List.mem_map_of_mem hm, level⟩
  have hlevels := StableOrder.flatMap_levelWith hkeys hall
  rwa [List.flatMap_map] at hlevels

omit hr in
theorem handles_filter_itemsAt {π : Projection} {test : Key → Bool}
    (hcongr : ∀ a b, Key.compare a b = .eq → test a = test b) (key : Key) :
    Arrivals.handles ((itemsAt π placed key).filter fun item => test (π.keyOf item.2)) =
      if test key then (itemsAt π placed key).handles else [] := by
  have htest : ∀ item ∈ itemsAt π placed key, test (π.keyOf item.2) = test key := fun item hi =>
    (hcongr _ _ (StableOrder.mem_levelWith.1 hi).2).symm
  rw [List.filter_congr htest]
  cases test key <;> simp [Arrivals.handles]

theorem flatMap_filter {test : Key → Bool} (hcongr : ∀ a b, Key.compare a b = .eq → test a = test b) :
    (r.rows.filter fun row => test row.1).flatMap Prod.snd = placed.walk r.projection test := by
  have hrows : placed.walk r.projection test =
      r.rows.flatMap fun row => if test row.1 then row.2 else [] := by
    rw [Arrivals.walk, ← hr.flatMap_itemsAt, List.filter_flatMap, Arrivals.handles,
      List.map_flatMap]
    refine List.flatMap_congr fun row hm => ?_
    rw [hr.content_eq hm]
    exact handles_filter_itemsAt hcongr row.1
  rw [hrows]
  generalize r.rows = rows
  induction rows with
  | nil => rfl
  | cons row rows ih =>
    rw [List.filter_cons, List.flatMap_cons]
    split
    · rw [List.flatMap_cons, ih]
    · rw [ih, List.nil_append]

end Walks

/-- A probe reaches what a walk over all keys finds, first to last. -/
theorem lookups (hr : r.Holds shape placed) {probe : Entry} (hp : probe.Conforms shape) :
    let found := placed.walk r.projection (r.projection.keyOf probe).selects
    r.slice probe = .ok found ∧ r.first probe = .ok found.head? ∧
      r.last probe = .ok found.getLast? := by
  have hconforms : placed.known.Conforms shape := fun _ _ he =>
    hr.conforms _ (Arrivals.mem_of_known he)
  have hfit := hr.inside.fits hp
  have hslice := slice_eq hr.filed hconforms hp hfit
  rw [hr.flatMap_filter fun _ _ level => Key.selects_congr level _] at hslice
  exact ⟨hslice, first_eq_head? hr.filed hconforms hp hfit hslice,
    last_eq_getLast? hr.filed hconforms hp hfit hslice⟩

end Holds

variable {shape : Shape} {fields : List Nat} {π : Projection} {unique : Bool}
  {actions : List Action}

/-- After any history of additions, removals and clearances, lookups are walks over the keys held, in
order of the keys and within a key in order of arrival. A fully set probe keeps its own key, any
other the keys that agree with it. -/
theorem lookups_are_walks (hπ : Projection.onPositions shape fields .ordering = .ok π)
    (ha : Arrivals.Permits shape π unique [] actions) :
    ∃ r, (empty π unique).actAll actions = .ok r ∧
      ∀ probe : Entry, probe.Conforms shape →
        let found := (Arrivals.actAll π unique actions).walk π (π.keyOf probe).selects
        (∀ source, (Index.tree r).slice source probe = .ok found) ∧
        (∀ source, (Index.tree r).get source probe = .ok found.head?) ∧
        r.first probe = .ok found.head? ∧ r.last probe = .ok found.getLast? := by
  have hempty := Holds.empty (Projection.onPositions_spec hπ).1 unique
  obtain ⟨r, hrun, hproj, -, hr⟩ := hempty.actAll ha
  obtain rfl : r.projection = π := hproj
  refine ⟨r, hrun, fun probe hp => ?_⟩
  obtain ⟨hslice, hfirst, hlast⟩ := hr.lookups hp
  exact ⟨fun _ => hslice, fun _ => hfirst, hfirst, hlast⟩

def sampleKey (a b : Value) : Entry := ⟨⟨[.int, .int]⟩, [a, b]⟩

/-- Under unique keys: an addition that is refused and comes again once its key is free, and a key
with a wildcard, which stands before the key it agrees with. -/
def sampleHistory : List Action :=
  [.add ⟨9, 0⟩ (sampleKey (.int 0) (.int 0)), .clear,
    .add ⟨0, 0⟩ (sampleKey (.int 1) (.int 5)), .add ⟨1, 0⟩ (sampleKey (.int 1) (.int 5)),
    .add ⟨2, 0⟩ (sampleKey (.int 0) (.int 9)), .add ⟨3, 0⟩ (sampleKey (.unset .int) (.int 7)),
    .remove ⟨0, 0⟩ (sampleKey (.int 1) (.int 5)), .add ⟨1, 0⟩ (sampleKey (.int 1) (.int 5))]

theorem lookups_are_walks_of_sample : ∃ π r,
    Projection.onPositions ⟨[.int, .int]⟩ [1, 2] .ordering = .ok π ∧
    Arrivals.Permits ⟨[.int, .int]⟩ π true [] sampleHistory ∧
    (empty π true).actAll sampleHistory = .ok r ∧
    (Index.tree r).slice (fun _ => none) (sampleKey (.int 0) (.unset .int)) =
      .ok [⟨3, 0⟩, ⟨2, 0⟩] ∧
    r.last (.blank ⟨[.int, .int]⟩) = .ok (some ⟨1, 0⟩) := by
  obtain ⟨π, hπ⟩ : ∃ π, Projection.onPositions ⟨[.int, .int]⟩ [1, 2] .ordering = .ok π := ⟨_, rfl⟩
  have hsame := hπ
  obtain rfl := Except.ok.inj hsame
  have ha : Arrivals.Permits ⟨[.int, .int]⟩ ⟨⟨[.int, .int]⟩, [0, 1], .ordering⟩ true []
    sampleHistory := by decide
  obtain ⟨r, hrun, hr⟩ := lookups_are_walks hπ ha
  refine ⟨_, r, hπ, ha, hrun, ?_, ?_⟩
  · exact ((hr _ (by decide)).1 _).trans (by decide)
  · exact (hr _ (by decide)).2.2.2.trans (by decide)

end KeyRows
end IndexedStore
