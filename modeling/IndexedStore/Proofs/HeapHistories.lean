import IndexedStore.Proofs.Extrema
import IndexedStore.Proofs.RowHistories

/-!
# Histories of group heaps

Any additions and removals can be made to group heaps, also of a handle that is held already. A list
of arrivals tells what they hold after that: the items of a group are the arrivals under its key. So
a slice visits the arrivals whose group fields agree with a probe, and a peek answers the first among
the groups it looks for. A probe without a wildcard peeks at its own group only, but its slice also
visits groups with an unset field; the peek heads the slice unless one of these leads.
-/
namespace IndexedStore

theorem flatMap_filter_perm {κ α : Type} {keys : List κ} {test : κ → α → Bool}
    (hapart : keys.Pairwise fun k l => ∀ x, test k x = true → test l x = false) (xs : List α) :
    (keys.flatMap fun k => xs.filter (test k)).Perm (xs.filter fun x => keys.any (test · x)) := by
  induction keys with
  | nil => simp
  | cons k keys ih =>
    obtain ⟨hk, hrest⟩ := List.pairwise_cons.1 hapart
    rw [List.flatMap_cons]
    refine ((ih hrest).append_left _).trans ?_
    refine .trans (.of_eq ?_) (List.filter_append_perm (test k) _)
    rw [List.filter_filter, List.filter_filter]
    congr 1 <;> refine List.filter_congr fun x _ => ?_
    · simp +contextual
    · cases hx : test k x with
      | false => simp [hx]
      | true =>
        have hnone : keys.any (test · x) = false :=
          List.any_eq_false.2 fun l hl => by simp [hk l hl x hx]
        simp [hx, hnone]

theorem exists_perm_of_map_perm {α β : Type} {f : α → β} {xs : List α} {ys : List β}
    (h : ys.Perm (xs.map f)) : ∃ zs : List α, zs.map f = ys ∧ zs.Perm xs := by
  have hmap : List.Forall₂ (fun y x => f x = y) (xs.map f) xs :=
    List.forall₂_map_left_iff.2 (List.forall₂_same.2 fun _ _ => rfl)
  obtain ⟨zs, hzs, hperm⟩ := List.perm_comp_forall₂ h hmap
  refine ⟨zs, ?_, hperm⟩
  rw [← List.forall₂_eq_eq_eq, List.forall₂_map_left_iff]
  exact hzs.flip

theorem Key.agrees_of_selects {probe key : Key} (h : probe.selects key = true) :
    probe.agrees key = true := by
  rw [Key.selects] at h
  split at h
  · exact h
  · exact Key.agrees_of_same (Key.same_of_compare (Ordering.isEq_iff_eq_eq.1 h))

theorem Key.selects_eq_of_full {probe key : Key} (hl : probe.length = key.length)
    (hp : probe.isPartial = false) (h : probe.agrees key = true) :
    probe.selects key = !key.isPartial := by
  cases hk : key.isPartial with
  | false => rw [Key.selects_eq_agrees hl (.inr hk), h]; rfl
  | true =>
    rw [Key.selects, hp, if_neg Bool.false_ne_true]
    refine eq_false_of_ne_true fun hlevel => ?_
    rw [← Key.isPartial_eq (Ordering.isEq_iff_eq_eq.1 hlevel), hp] at hk
    cases hk

def Change.entry : Change → Entry
  | .add _ e | .remove _ e => e

namespace Arrivals

variable {placed : Arrivals} {π : Projection} {h : Handle} {e x : Entry}

/-- What is held after a change, by its answer. An addition arrives last; a removal that was done
takes an arrival of its handle under the key of its entry. -/
inductive Follows (π : Projection) : Change → Bool → Arrivals → Arrivals → Prop
  | added {placed : Arrivals} {h : Handle} {e : Entry} :
      Follows π (.add h e) true placed (placed ++ [(h, e)])
  | removed {placed : Arrivals} {h : Handle} {e x : Entry} (hx : (h, x) ∈ placed)
      (level : Meets π e (h, x)) : Follows π (.remove h e) true placed (placed.erase (h, x))
  | missed {placed : Arrivals} {h : Handle} {e : Entry} :
      Follows π (.remove h e) false placed placed

inductive FollowsAll (π : Projection) : List Change → List Bool → Arrivals → Arrivals → Prop
  | nil {placed : Arrivals} : FollowsAll π [] [] placed placed
  | cons {c : Change} {changes : List Change} {answer : Bool} {answers : List Bool}
      {placed middle after : Arrivals} (hc : Follows π c answer placed middle)
      (hrest : FollowsAll π changes answers middle after) :
      FollowsAll π (c :: changes) (answer :: answers) placed after

def filed (placed : Arrivals) (π : Projection) (key : Key) : Arrivals :=
  placed.filter fun item => Key.compare key (π.keyOf item.2) = .eq

theorem mem_filed_iff {item : Handle × Entry} {key : Key} : item ∈ placed.filed π key ↔
    item ∈ placed ∧ Key.compare key (π.keyOf item.2) = .eq := by
  simp [filed]

/-- The first of some arrivals in a heap, which leads them all; nothing, if there are none. -/
def Foremost (order : Direction) (target : Nat) (placed : Arrivals) :
    Option (Handle × Entry) → Prop
  | none => placed = []
  | some best => best ∈ placed ∧
      ∀ item ∈ placed, order.Leads target best.1 best.2 item.1 item.2

namespace Foremost

variable {order : Direction} {target : Nat} {best : Option (Handle × Entry)}

theorem perm {after : Arrivals} (hb : placed.Foremost order target best)
    (h : placed.Perm after) : after.Foremost order target best := by
  cases best with
  | none => exact (hb ▸ h).symm.eq_nil
  | some best => exact ⟨h.mem_iff.1 hb.1, fun item hi => hb.2 item (h.mem_iff.2 hi)⟩

theorem leads_trans {a b c : Handle × Entry} (hab : order.Leads target a.1 a.2 b.1 b.2)
    (hbc : order.Leads target b.1 b.2 c.1 c.2) : order.Leads target a.1 a.2 c.1 c.2 := by
  have htrans : Std.TransCmp (Item.compare order) := inferInstance
  exact htrans.isLE_trans (a := ⟨a.2.field target, a.1⟩) (b := ⟨b.2.field target, b.1⟩)
    (c := ⟨c.2.field target, c.1⟩) hab hbc

/-- The first of some arrivals is the first of more exactly if one of them leads each other one. -/
theorem of_filter_iff {own : Handle × Entry → Bool}
    (hb : Arrivals.Foremost order target (placed.filter own) best) :
    placed.Foremost order target best ↔ ∀ stray ∈ placed, own stray = false →
      ∃ item ∈ placed, own item = true ∧
        order.Leads target item.1 item.2 stray.1 stray.2 := by
  cases best with
  | none =>
    have hnone : ∀ item ∈ placed, ¬ own item = true := List.filter_eq_nil_iff.1 hb
    constructor
    · rintro rfl
      simp
    · intro hstrays
      refine List.eq_nil_iff_forall_not_mem.2 fun stray hs => ?_
      obtain ⟨item, hi, hown, -⟩ := hstrays stray hs (eq_false_of_ne_true (hnone stray hs))
      exact hnone item hi hown
  | some best =>
    obtain ⟨hmem, hfirst⟩ := hb
    obtain ⟨hbest, hown⟩ := List.mem_filter.1 hmem
    refine ⟨fun hall stray hs _ => ⟨best, hbest, hown, hall.2 stray hs⟩, fun hstrays =>
      ⟨hbest, fun item hi => ?_⟩⟩
    cases hitem : own item with
    | true => exact hfirst item (List.mem_filter.2 ⟨hi, hitem⟩)
    | false =>
      obtain ⟨leader, hl, hleader, hlead⟩ := hstrays item hi hitem
      exact leads_trans (hfirst leader (List.mem_filter.2 ⟨hl, hleader⟩)) hlead

end Foremost

end Arrivals

namespace GroupHeaps

variable {g : GroupHeaps} {shape : Shape} {placed : Arrivals} {key : Key} {group : Group}
  {h : Handle} {e probe : Entry}

def change (g : GroupHeaps) : Change → Checked (Bool × GroupHeaps)
  | .add h e => do return (true, ← g.add h e)
  | .remove h e => do
    let after ← g.remove? h e
    return (after.isSome, after.getD g)

def changeAll : List Change → GroupHeaps → Checked (List Bool × GroupHeaps)
  | [], g => .ok ([], g)
  | c :: rest, g => do
    let (answer, g) ← g.change c
    let (answers, g) ← changeAll rest g
    return (answer :: answers, g)

namespace Keyed

variable (hf : g.Keyed)
include hf

theorem itemsAt_of_mem (hg : group ∈ g.groups) (level : Key.compare key group.key = .eq) :
    g.itemsAt key = group.items := by
  have hk : key.length = g.projection.width := (Key.length_eq level).trans (hf.width group hg)
  rw [itemsAt, (hf.group?_eq_some_iff hk).2 ⟨hg, level⟩]

theorem itemsAt_of_not_mem (hk : key.length = g.projection.width)
    (hg : ∀ group ∈ g.groups, Key.compare key group.key ≠ .eq) : g.itemsAt key = #[] := by
  have hnone : g.group? key = none := Option.eq_none_iff_forall_ne_some.2 fun group hgroup =>
    let ⟨hm, level⟩ := (hf.group?_eq_some_iff hk).1 hgroup
    hg group hm level
  rw [itemsAt, hnone]

theorem itemsAt_replace (hk : key.length = g.projection.width) (out : Array Item × Places)
    (tally : Tally) {other : Key} (ho : other.length = g.projection.width) :
    (g.replace key out tally).itemsAt other =
      if Key.compare other key = .eq then out.1 else g.itemsAt other := by
  have hwith {group : Group} : group ∈ (g.replace key out tally).groups ↔
      regroup key (g.group? key) out.1 = some group ∨ group ∈ g.others key := by
    refine ((hf.groups_perm hk).2 out.1).mem_iff.trans ?_
    rw [List.mem_append, Option.mem_toList]
  have hnew := hf.replace hk out tally
  split
  next level =>
    cases hgroup : regroup key (g.group? key) out.1 with
    | some group =>
      obtain ⟨hkey, hitems, -⟩ := hf.regroup_spec hk hgroup
      rw [hnew.itemsAt_of_mem (hwith.2 (.inl hgroup)) (Std.TransCmp.eq_trans level hkey), hitems]
    | none =>
      have hempty : out.1 = #[] := by simpa [regroup] using hgroup
      rw [hempty]
      refine hnew.itemsAt_of_not_mem ho fun group hg hother => ?_
      obtain hg | hg := hwith.1 hg
      · rw [hgroup] at hg
        cases hg
      · exact (mem_others_iff.1 hg).2
          (Std.TransCmp.eq_trans (Std.OrientedCmp.eq_symm level) hother)
  next level =>
    have hsame {group : Group} (hg : group ∈ g.groups)
        (hother : Key.compare other group.key = .eq) : group ∈ g.others key :=
      mem_others_iff.2 ⟨hg, fun hkey =>
        level (Std.TransCmp.eq_trans hother (Std.OrientedCmp.eq_symm hkey))⟩
    by_cases hex : ∃ group ∈ g.groups, Key.compare other group.key = .eq
    · obtain ⟨group, hg, hother⟩ := hex
      rw [hf.itemsAt_of_mem hg hother,
        hnew.itemsAt_of_mem (hwith.2 (.inr (hsame hg hother))) hother]
    · have hnone : ∀ group ∈ g.groups, Key.compare other group.key ≠ .eq :=
        fun group hg hother => hex ⟨group, hg, hother⟩
      rw [hf.itemsAt_of_not_mem ho hnone]
      refine hnew.itemsAt_of_not_mem ho fun group hg hother => ?_
      obtain hg | hg := hwith.1 hg
      · exact level (Std.TransCmp.eq_trans hother
          (Std.OrientedCmp.eq_symm (hf.regroup_spec hk hg).1))
      · exact hnone group (mem_others_iff.1 hg).1 hother

end Keyed

/-- Group heaps hold what has arrived, under the keys of the entries. A handle can have arrived more
than once, so the table of places need not tell of all items. -/
structure Holds (shape : Shape) (placed : Arrivals) (g : GroupHeaps) : Prop where
  keyed : g.Keyed
  inside : g.projection.Inside shape
  pos : 0 < g.target
  le : g.target ≤ shape.arity
  table : OrderedTable.Ascending Handle.compare g.places
  inOrder : ∀ key, key.length = g.projection.width → Heap.InOrder g.order (g.itemsAt key)
  items : ∀ key, key.length = g.projection.width → (g.itemsAt key).toList.Perm
    ((placed.filed g.projection key).map fun item => g.itemOf item.1 item.2)

namespace Holds

theorem empty {π : Projection} {target : Nat} (hπ : π.Inside shape) (hpos : 0 < target)
    (hle : target ≤ shape.arity) (order : Direction) :
    (GroupHeaps.empty π target order).Holds shape [] where
  keyed :=
    have hfiled : (GroupHeaps.empty π target order).Filed fun _ => none := empty_filed π target order
    hfiled.keyed
  inside := hπ
  pos := hpos
  le := hle
  table := List.Pairwise.nil
  inOrder _ _ := Heap.inOrder_empty
  items _ _ := .refl _

section Steps

variable (hg : g.Holds shape placed)
include hg

theorem reads (he : e.Conforms shape) : g.Reads e where
  fits := hg.inside.fits he
  pos := hg.pos
  le := by
    rw [he.length]
    exact hg.le

theorem replace {after : Arrivals} {kept : List Item} {out : Array Item × Places} {tally : Tally}
    (hk : key.length = g.projection.width) (ho : Heap.Keeps g.order kept out)
    (hkept : kept.Perm ((after.filed g.projection key).map fun item => g.itemOf item.1 item.2))
    (hothers : ∀ other, Key.compare other key ≠ .eq →
      (after.filed g.projection other).Perm (placed.filed g.projection other)) :
    (g.replace key out tally).Holds shape after where
  keyed := hg.keyed.replace hk out tally
  inside := hg.inside
  pos := hg.pos
  le := hg.le
  table := ho.ascending
  inOrder other hl := by
    rw [hg.keyed.itemsAt_replace hk out tally hl]
    split
    · exact ho.inOrder
    · exact hg.inOrder other hl
  items other hl := by
    rw [hg.keyed.itemsAt_replace hk out tally hl]
    split
    next level =>
      have hsame : after.filed g.projection other = after.filed g.projection key :=
        List.filter_congr fun item _ => by rw [Std.TransCmp.congr_left level]
      refine (ho.items.trans hkept).trans (.of_eq ?_)
      rw [← hsame]
      rfl
    next level => exact (hg.items other hl).trans ((hothers other level).symm.map _)

theorem push : (g.push (g.projection.keyOf e) ⟨g.targetOf e, h⟩).Holds shape
    (placed ++ [(h, e)]) := by
  have hk : (g.projection.keyOf e).length = g.projection.width := Projection.length_keyOf
  have hfiled (key : Key) : (placed ++ [(h, e)]).filed g.projection key =
      placed.filed g.projection key ++
        if Key.compare key (g.projection.keyOf e) = .eq then [(h, e)] else [] := by
    rw [Arrivals.filed, List.filter_append, Arrivals.filed]
    congr 1
    split <;> simp [*]
  rw [push_eq_replace]
  refine hg.replace hk (Heap.push_keeps (hg.inOrder _ hk) hg.table _) ?_ fun other level => ?_
  · rw [hfiled, if_pos Std.ReflCmp.compare_self, List.map_append]
    exact (hg.items _ hk).append_right _
  · rw [hfiled, if_neg level, List.append_nil]

theorem pull {i : Nat} (hi : i < (g.itemsAt (g.projection.keyOf e)).size)
    (hh : (g.itemsAt (g.projection.keyOf e))[i].handle = h) : ∃ x, (h, x) ∈ placed ∧
      Arrivals.Meets g.projection e (h, x) ∧
      (g.pull (g.projection.keyOf e) h i).Holds shape (placed.erase (h, x)) := by
  have hk : (g.projection.keyOf e).length = g.projection.width := Projection.length_keyOf
  have hitems := hg.items _ hk
  have hlt : i < (g.itemsAt (g.projection.keyOf e)).toList.length := by simpa using hi
  have hmem := hitems.mem_iff.1 (List.getElem_mem hlt)
  obtain ⟨⟨h', x⟩, hx, hitem⟩ := List.mem_map.1 hmem
  rw [Array.getElem_toList hi] at hitem
  obtain rfl : h' = h := by
    rw [← hh, ← hitem]
    rfl
  obtain ⟨hplaced, level⟩ := Arrivals.mem_filed_iff.1 hx
  have hfiled (key : Key) := (List.perm_cons_erase hplaced).filter
    fun item => Key.compare key (g.projection.keyOf item.2) = .eq
  refine ⟨x, hplaced, level, hg.replace hk
    (Heap.removeAt_keeps (hg.inOrder _ hk) (OrderedTable.ascending_alter hg.table) hi) ?_
    fun other hother => ?_⟩
  · have hcons := hfiled (g.projection.keyOf e)
    rw [List.filter_cons_of_pos (by simpa using level)] at hcons
    have hall := (List.getElem_cons_eraseIdx_perm hlt).trans (hitems.trans (hcons.map _))
    rw [List.map_cons, Array.getElem_toList hi, ← hitem] at hall
    exact (List.perm_cons _).1 hall
  · have hskip := hfiled other
    rw [List.filter_cons_of_neg (by
      simpa using fun hx => hother (Std.TransCmp.eq_trans hx (Std.OrientedCmp.eq_symm level)))]
      at hskip
    exact hskip.symm

/-- A removal is done at a place of the heap of its key where its handle stands, if at all. -/
theorem remove?_eq (he : e.Conforms shape) : ∃ after, g.remove? h e = .ok after ∧
    ∀ g' ∈ after, ∃ i, ∃ hi : i < (g.itemsAt (g.projection.keyOf e)).size,
      (g.itemsAt (g.projection.keyOf e))[i].handle = h ∧
      g' = g.pull (g.projection.keyOf e) h i := by
  rw [remove?, Projection.project_eq (hg.inside.fits he), Checked.ok_bind]
  refine ⟨_, rfl, fun g' hg' => ?_⟩
  simp only [Option.bind_eq_bind, Option.mem_def, Option.bind_eq_some_iff] at hg'
  obtain ⟨group, hgroup, i, -, item, hitem, hdone⟩ := hg'
  have hitems : g.itemsAt (g.projection.keyOf e) = group.items := by rw [itemsAt, hgroup]
  obtain ⟨hi, rfl⟩ := Array.getElem?_eq_some_iff.1 hitem
  split at hdone
  · cases hdone
  next hhandle =>
    refine ⟨i, hitems ▸ hi, ?_, ?_⟩
    · simpa only [hitems] using not_not.1 hhandle
    · rw [GroupHeaps.pull, hitems]
      exact (Option.some.inj hdone).symm

theorem change {c : Change} (hc : c.entry.Conforms shape) : ∃ answer g' after,
    g.change c = .ok (answer, g') ∧ Arrivals.Follows g.projection c answer placed after ∧
      g'.Holds shape after ∧ g'.projection = g.projection ∧ g'.target = g.target ∧
      g'.order = g.order := by
  cases c with
  | add h e =>
    rw [GroupHeaps.change, add_eq (hg.reads (e := e) hc)]
    exact ⟨true, _, _, rfl, .added, hg.push, rfl, rfl, rfl⟩
  | remove h e =>
    obtain ⟨found, hremove, hfound⟩ := hg.remove?_eq (h := h) (e := e) hc
    rw [GroupHeaps.change, hremove]
    cases found with
    | none => exact ⟨false, g, placed, rfl, .missed, hg, rfl, rfl, rfl⟩
    | some g' =>
      obtain ⟨i, hi, hh, rfl⟩ := hfound g' rfl
      obtain ⟨x, hx, level, hafter⟩ := hg.pull hi hh
      exact ⟨true, _, _, rfl, .removed hx level, hafter, rfl, rfl, rfl⟩

end Steps

/-- What any changes leave behind is what their answers tell. -/
theorem changeAll {changes : List Change} (hg : g.Holds shape placed)
    (hc : ∀ c ∈ changes, c.entry.Conforms shape) : ∃ answers g' after,
    changeAll changes g = .ok (answers, g') ∧
      Arrivals.FollowsAll g.projection changes answers placed after ∧ g'.Holds shape after ∧
      g'.projection = g.projection ∧ g'.target = g.target ∧ g'.order = g.order := by
  induction changes generalizing g placed with
  | nil => exact ⟨[], g, placed, rfl, .nil, hg, rfl, rfl, rfl⟩
  | cons c rest ih =>
    obtain ⟨hfirst, hrest⟩ := List.forall_mem_cons.1 hc
    obtain ⟨answer, middle, between, hchange, hfollows, hmiddle, hπ, ht, ho⟩ := hg.change hfirst
    obtain ⟨answers, g', after, hrun, hall, hg', hπ', ht', ho'⟩ := ih hmiddle hrest
    refine ⟨answer :: answers, g', after, ?_, .cons hfollows (hπ ▸ hall), hg', hπ'.trans hπ,
      ht'.trans ht, ho'.trans ho⟩
    rw [GroupHeaps.changeAll, hchange, Checked.ok_bind]
    dsimp only
    rw [hrun]
    rfl

/-! ## Probes -/

section Probes

variable (hg : g.Holds shape placed)
include hg

theorem items_perm (hm : group ∈ g.groups) : group.items.toList.Perm
    ((placed.filed g.projection group.key).map fun item => g.itemOf item.1 item.2) := by
  rw [← hg.keyed.itemsAt_of_mem hm Std.ReflCmp.compare_self]
  exact hg.items _ (hg.keyed.width group hm)

theorem exists_group {item : Handle × Entry} (hi : item ∈ placed) : ∃ group ∈ g.groups,
    Key.compare group.key (g.projection.keyOf item.2) = .eq := by
  by_contra hnone
  have hk : (g.projection.keyOf item.2).length = g.projection.width := Projection.length_keyOf
  have hempty := hg.keyed.itemsAt_of_not_mem hk fun group hm level =>
    hnone ⟨group, hm, Std.OrientedCmp.eq_symm level⟩
  have hmem := (hg.items _ hk).mem_iff.2
    (List.mem_map_of_mem (Arrivals.mem_filed_iff.2 ⟨hi, Std.ReflCmp.compare_self⟩))
  rw [hempty] at hmem
  simp at hmem

theorem reached_perm (key : Key) : ((g.reached key).flatMap fun group => group.items.toList).Perm
    ((placed.filter fun item => key.agrees (g.projection.keyOf item.2)).map
      fun item => g.itemOf item.1 item.2) := by
  have hsub : (g.reached key).Sublist g.groups := List.filter_sublist
  have hapart : (g.reached key).Pairwise fun a b => ∀ item : Handle × Entry,
      decide (Key.compare a.key (g.projection.keyOf item.2) = .eq) = true →
      decide (Key.compare b.key (g.projection.keyOf item.2) = .eq) = false := by
    refine (hg.keyed.apart.sublist hsub).imp fun hab item ha => ?_
    rw [decide_eq_true_eq] at ha
    exact decide_eq_false fun hb => hab (Std.TransCmp.eq_trans ha (Std.OrientedCmp.eq_symm hb))
  have hreached {item : Handle × Entry} (hi : item ∈ placed) :
      ((g.reached key).any fun group => Key.compare group.key (g.projection.keyOf item.2) = .eq) =
        key.agrees (g.projection.keyOf item.2) := by
    rw [Bool.eq_iff_iff, List.any_eq_true]
    simp only [reached, List.mem_filter, decide_eq_true_eq]
    constructor
    · rintro ⟨group, ⟨-, hagrees⟩, level⟩
      rwa [← Key.agrees_eq level]
    · intro hagrees
      obtain ⟨group, hm, level⟩ := hg.exists_group hi
      exact ⟨group, ⟨hm, by rwa [Key.agrees_eq level]⟩, level⟩
  refine (List.Perm.flatMap_left _ fun group hm => hg.items_perm (hsub.subset hm)).trans ?_
  rw [← List.map_flatMap]
  refine ((flatMap_filter_perm hapart placed).map _).trans (.of_eq ?_)
  rw [List.filter_congr fun item hi => hreached hi]

/-- A slice visits the arrivals whose keys agree with the key of its probe. -/
theorem slice_spec (hp : probe.Conforms shape) : ∃ visited : Arrivals,
    g.slice probe = .ok visited.handles ∧ visited.Perm (placed.filter fun item =>
      (g.projection.keyOf probe).agrees (g.projection.keyOf item.2)) := by
  obtain ⟨visited, hmap, hperm⟩ :=
    exists_perm_of_map_perm (hg.reached_perm (g.projection.keyOf probe))
  refine ⟨visited, ?_, hperm⟩
  rw [slice, Projection.project_eq (hg.inside.fits hp), Checked.ok_bind, ← List.map_flatMap, ← hmap,
    List.map_map]
  rfl

/-- A peek answers the first of the arrivals that its key looks for. -/
theorem peek_spec (hp : probe.Conforms shape) : ∃ best,
    g.peek probe = .ok (best.map Prod.fst) ∧ Arrivals.Foremost g.order g.target
      (placed.filter fun item =>
        (g.projection.keyOf probe).selects (g.projection.keyOf item.2)) best := by
  have horder : ∀ group ∈ g.groups, Heap.InOrder g.order group.items := fun group hm => by
    rw [← hg.keyed.itemsAt_of_mem hm Std.ReflCmp.compare_self]
    exact hg.inOrder _ (hg.keyed.width group hm)
  obtain ⟨found, hpeek, hfound⟩ := hg.keyed.peek_spec (hg.inside.fits hp) horder
  cases found with
  | none =>
    refine ⟨none, hpeek, List.filter_eq_nil_iff.2 fun item hi => ?_⟩
    obtain ⟨group, hm, level⟩ := hg.exists_group hi
    rw [← Key.selects_congr level, hfound group hm]
    exact Bool.false_ne_true
  | some item =>
    obtain ⟨⟨group, hm, hsel, hitem⟩, hmin⟩ := hfound
    obtain ⟨best, hbest, rfl⟩ :=
      List.mem_map.1 ((hg.items_perm hm).mem_iff.1 (Array.mem_toList_iff.2 hitem))
    obtain ⟨hplaced, level⟩ := Arrivals.mem_filed_iff.1 hbest
    refine ⟨some best, hpeek, List.mem_filter.2 ⟨hplaced, ?_⟩, fun other ho => ?_⟩
    · rw [← Key.selects_congr level, hsel]
    · obtain ⟨ho, hsel'⟩ := List.mem_filter.1 ho
      obtain ⟨group', hm', level'⟩ := hg.exists_group ho
      have hbefore := hmin group' hm' (by rw [Key.selects_congr level', hsel'])
        (g.itemOf other.1 other.2) (Array.mem_toList_iff.1 ((hg.items_perm hm').mem_iff.2
          (List.mem_map_of_mem (Arrivals.mem_filed_iff.2 ⟨ho, level'⟩))))
      exact Item.not_isBefore_iff.1 hbefore

end Probes

end Holds

variable {fields : List Nat} {target : Nat} {order : Direction} {π : Projection}
  {changes : List Change}

/-- After any additions and removals a peek answers the first of the arrivals in the groups it looks
for. It is the first of all that the slice visits exactly if the probe has a wildcard or each stray,
which stands under a key with a wildcard, comes after an arrival in the group of the probe. -/
theorem peek_heads_slice_iff (hπ : Projection.onPositions shape fields .equality = .ok π)
    (hpos : 0 < target) (hle : target ≤ shape.arity)
    (hc : ∀ c ∈ changes, c.entry.Conforms shape) :
    ∃ answers g placed, changeAll changes (empty π target order) = .ok (answers, g) ∧
      Arrivals.FollowsAll π changes answers [] placed ∧
      ∀ probe : Entry, probe.Conforms shape → ∃ best visited,
        g.peek probe = .ok (best.map Prod.fst) ∧
        g.slice probe = .ok (Arrivals.handles visited) ∧
        visited.Perm (placed.filter fun item => (π.keyOf probe).agrees (π.keyOf item.2)) ∧
        Arrivals.Foremost order target
          (visited.filter fun item => (π.keyOf probe).selects (π.keyOf item.2)) best ∧
        (Arrivals.Foremost order target visited best ↔ ((π.keyOf probe).isPartial = false →
          ∀ stray ∈ visited, (π.keyOf stray.2).isPartial = true →
            ∃ own ∈ visited, (π.keyOf own.2).isPartial = false ∧
              order.Leads target own.1 own.2 stray.1 stray.2)) := by
  obtain ⟨answers, g, placed, hrun, hfollows, hg, hproj, htarget, horder⟩ :=
    (Holds.empty (Projection.onPositions_spec hπ).1 hpos hle order).changeAll hc
  refine ⟨answers, g, placed, hrun, hfollows, fun probe hp => ?_⟩
  obtain ⟨visited, hslice, hvisited⟩ := hg.slice_spec hp
  obtain ⟨best, hpeek, hbest⟩ := hg.peek_spec hp
  obtain rfl : g.projection = π := hproj
  obtain rfl : g.target = target := htarget
  obtain rfl : g.order = order := horder
  generalize hkey : g.projection.keyOf probe = key at hvisited hbest ⊢
  have hwidth : key.length = g.projection.width := hkey ▸ Projection.length_keyOf
  have hown : Arrivals.Foremost g.order g.target
      (visited.filter fun item => key.selects (g.projection.keyOf item.2)) best := by
    refine hbest.perm (.trans (.of_eq ?_) (hvisited.filter _).symm)
    rw [List.filter_filter]
    refine List.filter_congr fun item _ => ?_
    cases hsel : key.selects (g.projection.keyOf item.2) with
    | false => rfl
    | true => rw [Key.agrees_of_selects hsel]; rfl
  refine ⟨best, visited, hpeek, hslice, hvisited, hown, ?_⟩
  rw [hown.of_filter_iff]
  cases hpart : key.isPartial with
  | true =>
    refine iff_of_true (fun stray hs hsel => ?_) fun h => by cases h
    have hagrees := (List.mem_filter.1 (hvisited.mem_iff.1 hs)).2
    simp [Key.selects, hpart, hagrees] at hsel
  | false =>
    have hfull {item : Handle × Entry} (hi : item ∈ visited) :
        key.selects (g.projection.keyOf item.2) = !(g.projection.keyOf item.2).isPartial :=
      Key.selects_eq_of_full (hwidth.trans Projection.length_keyOf.symm) hpart
        (List.mem_filter.1 (hvisited.mem_iff.1 hi)).2
    simp only [true_imp_iff]
    refine forall₂_congr fun stray hs => ?_
    rw [hfull hs, Bool.not_eq_false']
    refine imp_congr_right fun _ => exists_congr fun item => and_congr_right fun hi => ?_
    rw [hfull hi, Bool.not_eq_true']

def openPair (target : Int32) : Entry := ⟨⟨[.int, .int]⟩, [.unset .int, .int target]⟩

/-- A group with an unset field is visited by the slice of a probe whose peek does not look at it. -/
theorem peek_misses_open_group : ∃ π g,
    Projection.onPositions ⟨[.int, .int]⟩ [1] .equality = .ok π ∧
    Entry.Conforms (openPair 7) ⟨[.int, .int]⟩ ∧ (Store.samplePair 5 0).Conforms ⟨[.int, .int]⟩ ∧
    changeAll [.add ⟨0, 0⟩ (openPair 7)] (empty π 2 .ascending) = .ok ([true], g) ∧
    g.peek (Store.samplePair 5 0) = .ok none ∧ g.slice (Store.samplePair 5 0) = .ok [⟨0, 0⟩] := by
  exact ⟨_, _, rfl, ⟨rfl, rfl⟩, ⟨rfl, rfl⟩, rfl, by decide +kernel, by decide +kernel⟩

/-- A handle added twice, under an open key as well, one taken away, and one under another key. -/
def sampleHistory : List Change :=
  [.add ⟨0, 0⟩ (openPair 7), .add ⟨1, 0⟩ (Store.samplePair 5 9), .add ⟨0, 0⟩ (Store.samplePair 5 8),
    .remove ⟨1, 0⟩ (Store.samplePair 5 9), .add ⟨2, 0⟩ (Store.samplePair 6 3)]

/-- Under the third key the peek heads the slice, which has the stray as well; under the second one
the stray comes before what the peek answers. -/
theorem peek_heads_slice_iff_of_sample : ∃ π,
    Projection.onPositions ⟨[.int, .int]⟩ [1] .equality = .ok π ∧
    (∀ c ∈ sampleHistory, c.entry.Conforms ⟨[.int, .int]⟩) ∧
    ∃ answers g placed, changeAll sampleHistory (empty π 2 .ascending) = .ok (answers, g) ∧
      Arrivals.FollowsAll π sampleHistory answers [] placed ∧
      (∀ probe : Entry, probe.Conforms ⟨[.int, .int]⟩ → ∃ best visited,
        g.peek probe = .ok (best.map Prod.fst) ∧
        g.slice probe = .ok (Arrivals.handles visited) ∧
        visited.Perm (placed.filter fun item => (π.keyOf probe).agrees (π.keyOf item.2)) ∧
        Arrivals.Foremost .ascending 2
          (visited.filter fun item => (π.keyOf probe).selects (π.keyOf item.2)) best ∧
        (Arrivals.Foremost .ascending 2 visited best ↔ ((π.keyOf probe).isPartial = false →
          ∀ stray ∈ visited, (π.keyOf stray.2).isPartial = true →
            ∃ own ∈ visited, (π.keyOf own.2).isPartial = false ∧
              Direction.ascending.Leads 2 own.1 own.2 stray.1 stray.2))) ∧
      answers = [true, true, true, true, true] ∧
      g.peek (Store.samplePair 6 0) = .ok (some ⟨2, 0⟩) ∧
      g.slice (Store.samplePair 6 0) = .ok [⟨0, 0⟩, ⟨2, 0⟩] ∧
      (g.group? [.int 5]).map Group.items = some #[⟨.int 8, ⟨0, 0⟩⟩] ∧
      g.slice (Store.samplePair 5 0) = .ok [⟨0, 0⟩, ⟨0, 0⟩] := by
  obtain ⟨π, hπ⟩ : ∃ π, Projection.onPositions ⟨[.int, .int]⟩ [1] .equality = .ok π := ⟨_, rfl⟩
  have hc : ∀ c ∈ sampleHistory, c.entry.Conforms ⟨[.int, .int]⟩ := by decide
  have hle : 2 ≤ Shape.arity ⟨[.int, .int]⟩ := by decide
  obtain ⟨answers, g, placed, hrun, hfollows, hprobes⟩ : ∃ answers g placed,
      changeAll sampleHistory (empty π 2 .ascending) = .ok (answers, g) ∧ _ ∧ _ :=
    peek_heads_slice_iff hπ Nat.two_pos hle hc
  have hfacts : ∀ out ∈ (changeAll sampleHistory (empty π 2 .ascending)).toOption,
      out.1 = [true, true, true, true, true] ∧
      out.2.peek (Store.samplePair 6 0) = .ok (some ⟨2, 0⟩) ∧
      out.2.slice (Store.samplePair 6 0) = .ok [⟨0, 0⟩, ⟨2, 0⟩] ∧
      (out.2.group? [.int 5]).map Group.items = some #[⟨.int 8, ⟨0, 0⟩⟩] ∧
      out.2.slice (Store.samplePair 5 0) = .ok [⟨0, 0⟩, ⟨0, 0⟩] := by
    obtain rfl := Except.ok.inj hπ
    decide +kernel
  exact ⟨π, hπ, hc, answers, g, placed, hrun, hfollows, hprobes,
    hfacts (answers, g) (by rw [hrun]; rfl)⟩

end GroupHeaps
end IndexedStore
