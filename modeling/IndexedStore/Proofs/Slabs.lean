import Mathlib.Data.List.Nodup
import Mathlib.Logic.Function.Basic
import IndexedStore.Proofs.Checked
import IndexedStore.Slab

/-!
# What a slab holds

A sound slab keeps its vacant slots and its size in step with its cells, and has no more cells than
handles can name. What its handles reach is a finite map: an insertion takes a handle that reached
nothing and lets it reach the new content, a removal takes it away, a replacement overrides it, and
no other handle notices.
-/
namespace IndexedStore.Slab

variable {α : Type} {s t : Slab α} {h : Handle} {x y : α}

def isHeld (cell : Cell α) : Bool := cell.content.isSome

/-- The bookkeeping of a slab agrees with its cells, and handles can name all of them. -/
structure Sound (s : Slab α) : Prop where
  room : s.cells.size ≤ UInt32.size
  vacant : ∀ slot, slot ∈ s.vacant ↔
    ∃ cell, s.cells[slot.toNat]? = some cell ∧ cell.content = none
  nodup : s.vacant.Nodup
  size : s.size = s.cells.toList.countP isHeld

def HasRoom (s : Slab α) : Prop := s.vacant ≠ [] ∨ s.cells.size < UInt32.size

theorem get?_eq_some_iff : s.get? h = some x ↔
    ∃ cell, s.cells[h.slot.toNat]? = some cell ∧ cell.generation = h.generation ∧
      cell.content = some x := by
  simp only [get?, cell?, Option.bind_eq_some_iff, Option.filter_eq_some_iff, decide_eq_true_eq]
  exact exists_congr fun _ => and_assoc

theorem empty_sound : (empty : Slab α).Sound where
  room := by simp [empty]
  vacant := by simp [empty]
  nodup := List.nodup_nil
  size := rfl

@[simp] theorem empty_get? : (empty : Slab α).get? h = none := by simp [empty, get?, cell?]

theorem Sound.toNat_ofNat (hs : s.Sound) {i : Nat} (hi : i < s.cells.size) :
    (UInt32.ofNat i).toNat = i :=
  UInt32.toNat_ofNat_of_lt' (Nat.lt_of_lt_of_le hi hs.room)

/-- A slab has room while it holds fewer contents than there are slot numbers. -/
theorem Sound.hasRoom (hs : s.Sound) (hsize : s.size < UInt32.size) : s.HasRoom := by
  by_cases hv : s.vacant = []
  · right
    have hall : s.cells.toList.countP isHeld = s.cells.toList.length := by
      rw [List.countP_eq_length]
      intro cell hc
      obtain ⟨i, hi, hcell⟩ := List.mem_iff_getElem.1 hc
      rw [Array.length_toList] at hi
      by_contra hnot
      have hvacant : UInt32.ofNat i ∈ s.vacant := by
        refine (hs.vacant _).2 ⟨cell, ?_, by simpa [isHeld] using hnot⟩
        rw [hs.toNat_ofNat hi, Array.getElem?_eq_getElem hi, ← hcell, Array.getElem_toList]
      rw [hv] at hvacant
      cases hvacant
    have hcount := hs.size
    rw [hall, Array.length_toList] at hcount
    omega
  · exact .inl hv

theorem Sound.size_le (hs : s.Sound) : s.size ≤ UInt32.size := by
  rw [hs.size]
  exact Nat.le_trans List.countP_le_length (Array.length_toList ▸ hs.room)

theorem get?_of_set {slot : UInt32} {cell : Cell α} (hb : slot.toNat < s.cells.size)
    (hc : t.cells = s.cells.setIfInBounds slot.toNat cell) : t.get? h =
      if h.slot = slot then (if cell.generation = h.generation then cell.content else none)
      else s.get? h := by
  by_cases hslot : h.slot = slot
  · subst hslot
    by_cases hg : cell.generation = h.generation <;> simp [get?, cell?, hc, hb, hg, Option.filter]
  · have hne : slot.toNat ≠ h.slot.toNat := fun he => hslot (UInt32.toNat_inj.1 he.symm)
    simp [get?, cell?, hc, hne, hslot]

theorem countP_set {cells : Array (Cell α)} {i : Nat} {old : Cell α} (ho : cells[i]? = some old)
    (cell : Cell α) :
    (cells.setIfInBounds i cell).toList.countP isHeld + (if isHeld old then 1 else 0) =
      cells.toList.countP isHeld + if isHeld cell then 1 else 0 := by
  obtain ⟨hi, rfl⟩ := Array.getElem?_eq_some_iff.1 ho
  have hl : i < cells.toList.length := by simpa using hi
  have hmem : isHeld cells[i] → 0 < cells.toList.countP isHeld := fun hp =>
    List.countP_pos_iff.2 ⟨cells[i], by simp, hp⟩
  rw [Array.toList_setIfInBounds, List.countP_set hl]
  simp only [Array.getElem_toList]
  by_cases hp : isHeld cells[i]
  · have := hmem hp
    simp only [hp, if_true]
    omega
  · simp [hp]

theorem get?_of_vacant (hs : s.Sound) {slot : UInt32} (hv : slot ∈ s.vacant) (g : UInt32) :
    s.get? ⟨slot, g⟩ = none := by
  obtain ⟨cell, hc, hn⟩ := (hs.vacant slot).1 hv
  simp only [get?, cell?, hc, Option.filter]
  split <;> simp [hn]

theorem insert_reused (hs : s.Sound) {slot : UInt32} {vacant : List UInt32}
    (hv : s.vacant = slot :: vacant) (x : α) : ∃ h t, s.insert x = .ok (h, t) ∧ t.Sound ∧
      s.get? h = none ∧ t.get? = Function.update s.get? h (some x) := by
  have hmem : slot ∈ s.vacant := by simp [hv]
  have ⟨hne, hnd⟩ := List.nodup_cons.1 (hv ▸ hs.nodup)
  obtain ⟨cell, hc, hn⟩ := (hs.vacant slot).1 hmem
  have hb : slot.toNat < s.cells.size := (Array.getElem?_eq_some_iff.1 hc).1
  let t : Slab α :=
    ⟨s.cells.setIfInBounds slot.toNat { cell with content := some x }, vacant, s.size + 1⟩
  refine ⟨⟨slot, cell.generation⟩, t, by simp [insert, hv, hc, t], ?_, get?_of_vacant hs hmem _, ?_⟩
  · refine ⟨by simpa [t] using hs.room, fun other => ?_, hnd, ?_⟩
    · have hother := hs.vacant other
      rw [hv, List.mem_cons] at hother
      by_cases he : other = slot
      · subst he
        simp [t, hne, hb]
      · have hn : slot.toNat ≠ other.toNat := fun h => he (UInt32.toNat_inj.1 h.symm)
        simpa [t, he, hn] using hother
    · have := countP_set hc { cell with content := some x }
      simp only [isHeld, hn, Option.isSome_none, Option.isSome_some, Bool.false_eq_true, if_false,
        if_true, Nat.add_zero] at this
      simpa [t, hs.size] using this.symm
  · funext h
    rw [get?_of_set hb rfl]
    by_cases he : h = ⟨slot, cell.generation⟩
    · simp [he]
    · rw [Function.update_of_ne he]
      split
      next hslot =>
        have hg : cell.generation ≠ h.generation := fun hg => he (by cases h; simp_all)
        rw [if_neg hg, ← get?_of_vacant hs hmem h.generation, ← hslot]
      · rfl

theorem insert_opened (hs : s.Sound) (hv : s.vacant = []) (hb : s.cells.size < UInt32.size) (x : α) :
    ∃ h t, s.insert x = .ok (h, t) ∧ t.Sound ∧
      s.get? h = none ∧ t.get? = Function.update s.get? h (some x) := by
  have hslot : (UInt32.ofNat s.cells.size).toNat = s.cells.size := UInt32.toNat_ofNat_of_lt' hb
  have hfresh : s.get? ⟨UInt32.ofNat s.cells.size, 0⟩ = none := by simp [get?, cell?, hslot]
  let t : Slab α := ⟨s.cells.push ⟨0, some x⟩, [], s.size + 1⟩
  refine ⟨⟨UInt32.ofNat s.cells.size, 0⟩, t, by simp [insert, hv, t], ?_, hfresh, ?_⟩
  · refine ⟨by simp [t]; omega, fun other => ?_, List.nodup_nil, ?_⟩
    · have hother := hs.vacant other
      simp only [hv, List.not_mem_nil, false_iff] at hother
      simp only [t, List.not_mem_nil, false_iff, Array.getElem?_push]
      split
      · simp
      · exact hother
    · simp [t, hs.size, isHeld]
  · funext h
    by_cases he : h = ⟨UInt32.ofNat s.cells.size, 0⟩
    · simp [he, t, get?, cell?, hslot, Option.filter]
    · rw [Function.update_of_ne he]
      by_cases hh : h.slot.toNat = s.cells.size
      · have hg : (0 : UInt32) ≠ h.generation := by
          intro hg
          have : h.slot = UInt32.ofNat s.cells.size := UInt32.toNat_inj.1 (by rw [hh, hslot])
          exact he (by cases h; simp_all)
        simp [t, get?, cell?, hh, Option.filter, hg]
      · simp [t, get?, cell?, Array.getElem?_push, hh]

/-- An insertion into a slab with room answers a handle that reached nothing before, and from then
on reaches the content. -/
theorem insert_sound (hs : s.Sound) (hr : s.HasRoom) (x : α) : ∃ h t, s.insert x = .ok (h, t) ∧
    t.Sound ∧ s.get? h = none ∧ t.get? = Function.update s.get? h (some x) := by
  cases hv : s.vacant with
  | cons slot vacant => exact insert_reused hs hv x
  | nil => exact insert_opened hs hv (hr.resolve_left (by simp [hv])) x

theorem replace_eq (hx : s.get? h = some x) (y : α) : s.replace h y =
    { s with cells := s.cells.setIfInBounds h.slot.toNat ⟨h.generation, some y⟩ } := by
  simp [replace, contains, hx]

theorem replace_sound (hs : s.Sound) (hx : s.get? h = some x) (y : α) :
    (s.replace h y).Sound ∧ (s.replace h y).get? = Function.update s.get? h (some y) := by
  obtain ⟨cell, hc, hg, hn⟩ := get?_eq_some_iff.1 hx
  have hb : h.slot.toNat < s.cells.size := (Array.getElem?_eq_some_iff.1 hc).1
  rw [replace_eq hx]
  refine ⟨⟨by simpa using hs.room, fun other => ?_, hs.nodup, ?_⟩, ?_⟩
  · rw [hs.vacant other]
    by_cases ho : h.slot.toNat = other.toNat
    · rw [← ho, hc]
      simp [hb, hn]
    · simp [ho]
  · have := countP_set hc ⟨h.generation, some y⟩
    simp only [isHeld, hn, Option.isSome_some, if_true, Nat.add_right_cancel_iff] at this
    simpa [hs.size] using this.symm
  · funext k
    rw [get?_of_set hb rfl]
    by_cases hk : k = h
    · simp [hk]
    · rw [Function.update_of_ne hk]
      split
      next hslot =>
        have hgk : h.generation ≠ k.generation := fun hgk => hk (by cases h; cases k; simp_all)
        rw [if_neg hgk]
        simp [get?, cell?, hslot, hc, hg, Option.filter, hgk]
      · rfl

theorem replace_replace (hs : s.Sound) (hx : s.get? h = some x) (y : α) :
    (s.replace h y).replace h x = s := by
  obtain ⟨cell, hc, hg, hn⟩ := get?_eq_some_iff.1 hx
  have hy : (s.replace h y).get? h = some y := by simp [(replace_sound hs hx y).2]
  have he : s.cells[h.slot.toNat]? = some ⟨h.generation, some x⟩ := by
    rw [hc, ← hg, ← hn]
  rw [replace_eq hy, replace_eq hx]
  simp only [Array.setIfInBounds_setIfInBounds]
  congr 1
  refine Array.ext_getElem? fun i => ?_
  rw [Array.getElem?_setIfInBounds]
  split
  next hi => rw [← hi, he, if_pos (Array.getElem?_eq_some_iff.1 he).1]
  · rfl

/-- A removal answers what a handle reached, and takes it away. -/
theorem remove_sound (hs : s.Sound) (hx : s.get? h = some x) : ∃ t, s.remove h = .ok (some x, t) ∧
    t.Sound ∧ t.get? = Function.update s.get? h none := by
  obtain ⟨cell, hc, hg, hn⟩ := get?_eq_some_iff.1 hx
  have hb : h.slot.toNat < s.cells.size := (Array.getElem?_eq_some_iff.1 hc).1
  have hcount := countP_set hc ⟨h.generation + 1, none⟩
  simp only [isHeld, hn, Option.isSome_some, Option.isSome_none, Bool.false_eq_true, if_true,
    if_false, Nat.add_zero, ← hs.size] at hcount
  let t : Slab α := ⟨s.cells.setIfInBounds h.slot.toNat ⟨h.generation + 1, none⟩,
    h.slot :: s.vacant, s.size - 1⟩
  have hd : decrement s.size = .ok (s.size - 1) := Checked.decrement_eq (by omega)
  refine ⟨t, by simp [remove, hx, hd, t], ⟨by simpa [t] using hs.room, fun other => ?_, ?_, ?_⟩, ?_⟩
  · rw [List.mem_cons, hs.vacant other]
    by_cases ho : h.slot.toNat = other.toNat
    · simp [t, ← ho, hb, UInt32.toNat_inj.1 ho]
    · have : other ≠ h.slot := fun he => ho (by rw [he])
      simp [t, ho, this]
  · refine List.nodup_cons.2 ⟨fun hv => ?_, hs.nodup⟩
    rw [show h = ⟨h.slot, h.generation⟩ from rfl, get?_of_vacant hs hv] at hx
    cases hx
  · simp only [t, ← hcount]
    omega
  · funext k
    rw [get?_of_set hb rfl]
    by_cases hk : k = h
    · simp [hk]
    · rw [Function.update_of_ne hk]
      split
      next hslot =>
        have hgk : h.generation ≠ k.generation := fun hgk => hk (by cases h; cases k; simp_all)
        simp [get?, cell?, hslot, hc, hg, Option.filter, hgk]
      · rfl

theorem remove_of_absent (hx : s.get? h = none) : s.remove h = .ok (none, s) := by
  simp [remove, hx]

theorem remove_cells {y : Option α} (hx : s.get? h = some x) (hremove : s.remove h = .ok (y, t)) :
    t.cells = s.cells.setIfInBounds h.slot.toNat ⟨h.generation + 1, none⟩ := by
  rw [remove, hx] at hremove
  obtain ⟨size, -, hremove⟩ := Checked.bind_eq_ok.1 hremove
  obtain ⟨-, rfl⟩ := Prod.mk.inj (Except.ok.inj hremove)
  rfl

theorem exists_remove (hs : s.Sound) (h : Handle) : ∃ t, s.remove h = .ok (s.get? h, t) ∧ t.Sound ∧
    t.get? = Function.update s.get? h none := by
  cases hx : s.get? h with
  | none => exact ⟨s, remove_of_absent hx, hs, by rw [← hx, Function.update_eq_self]⟩
  | some x => exact remove_sound hs hx

theorem clear_sound (hs : s.Sound) : s.clear.Sound := by
  refine ⟨by simpa [clear] using hs.room, fun slot => ?_, ?_, ?_⟩
  · have hslot : slot ∈ s.clear.vacant ↔ slot.toNat < s.cells.size := by
      simp only [clear, List.mem_reverse, List.mem_map, List.mem_range]
      constructor
      · rintro ⟨i, hi, rfl⟩
        rwa [hs.toNat_ofNat hi]
      · exact fun h => ⟨slot.toNat, h, by simp⟩
    rw [hslot]
    constructor
    · intro h
      refine ⟨(s.cells[slot.toNat]).vacate, by simp [clear, h], ?_⟩
      cases hc : s.cells[slot.toNat].content <;> simp [Cell.vacate, hc]
    · rintro ⟨cell, hc, _⟩
      simpa [clear] using (Array.getElem?_eq_some_iff.1 hc).1
  · rw [clear, List.nodup_reverse]
    refine List.Nodup.map_on (fun i hi j hj he => ?_) List.nodup_range
    rw [List.mem_range] at hi hj
    have := congrArg UInt32.toNat he
    rwa [hs.toNat_ofNat hi, hs.toNat_ofNat hj] at this
  · symm
    rw [clear, List.countP_eq_zero]
    simp only [Array.toList_map, List.mem_map, forall_exists_index, and_imp,
      forall_apply_eq_imp_iff₂, isHeld]
    intro cell _
    cases hc : cell.content <;> simp [Cell.vacate, hc]

@[simp] theorem clear_get? : s.clear.get? h = none := by
  cases hc : s.cells[h.slot.toNat]? with
  | none => simp [clear, get?, cell?, hc]
  | some cell =>
    have hn : cell.vacate.content = none := by cases hn : cell.content <;> simp [Cell.vacate, hn]
    simp only [clear, get?, cell?, Array.getElem?_map, hc, Option.map_some, Option.filter]
    split <;> simp [hn]

/-- A clearing vacates what a removal vacated before. -/
theorem clear_remove {y : Option α} (hremove : s.remove h = .ok (y, t)) : t.clear = s.clear := by
  cases hx : s.get? h with
  | none =>
    rw [remove_of_absent hx] at hremove
    obtain ⟨-, rfl⟩ := Prod.mk.inj (Except.ok.inj hremove)
    rfl
  | some x =>
    have hcells := remove_cells hx hremove
    obtain ⟨cell, hc, hg, hn⟩ := get?_eq_some_iff.1 hx
    have hvacated : t.cells.map Cell.vacate = s.cells.map Cell.vacate := by
      refine Array.ext_getElem? fun i => ?_
      rw [hcells, Array.getElem?_map, Array.getElem?_map, Array.getElem?_setIfInBounds]
      split
      next hi =>
        have hb : i < s.cells.size := hi ▸ (Array.getElem?_eq_some_iff.1 hc).1
        rw [← hi, hc, if_pos (hi ▸ hb)]
        simp [Cell.vacate, hn, hg]
      next => rfl
    have hsize : t.cells.size = s.cells.size := by rw [hcells, Array.size_setIfInBounds]
    rw [clear, clear, hvacated, hsize]

section Contents

theorem mem_toList_iff (hs : s.Sound) : (h, x) ∈ s.toList ↔ s.get? h = some x := by
  simp only [toList, List.mem_filterMap, Option.map_eq_some_iff, get?_eq_some_iff, Prod.exists,
    List.mem_zipIdx_iff_getElem?, Array.getElem?_toList]
  constructor
  · rintro ⟨cell, slot, hc, y, hn, he⟩
    obtain ⟨rfl, rfl⟩ := Prod.mk.inj he
    have hb := (Array.getElem?_eq_some_iff.1 hc).1
    exact ⟨cell, by rwa [hs.toNat_ofNat hb], rfl, hn⟩
  · rintro ⟨cell, hc, hg, hn⟩
    exact ⟨cell, h.slot.toNat, hc, x, hn, by cases h; simp_all⟩

theorem toList_ascending (hs : s.Sound) :
    s.toList.Pairwise fun a b => a.1.slot.toNat < b.1.slot.toNat := by
  rw [toList, List.pairwise_filterMap]
  have hslots : s.cells.toList.zipIdx.Pairwise fun a b => a.2 < b.2 := by
    have : (s.cells.toList.zipIdx.map Prod.snd).Pairwise (· < ·) := by
      rw [List.zipIdx_map_snd]
      exact List.pairwise_lt_range'
    exact List.pairwise_map.1 this
  refine hslots.imp_of_mem ?_
  rintro ⟨a, i⟩ ⟨b, j⟩ hi hj hij p hp q hq
  obtain ⟨x, _, rfl⟩ := Option.map_eq_some_iff.1 hp
  obtain ⟨y, _, rfl⟩ := Option.map_eq_some_iff.1 hq
  have hb := (List.getElem?_eq_some_iff.1 (List.mem_zipIdx_iff_getElem?.1 hj)).1
  rw [Array.length_toList] at hb
  have hij : i < j := hij
  change (UInt32.ofNat i).toNat < (UInt32.ofNat j).toNat
  rwa [hs.toNat_ofNat (Nat.lt_trans hij hb), hs.toNat_ofNat hb]

def handles (s : Slab α) : List Handle := s.toList.map Prod.fst

theorem mem_handles_iff (hs : s.Sound) : h ∈ s.handles ↔ (s.get? h).isSome := by
  simp [handles, mem_toList_iff hs, Option.isSome_iff_exists]

theorem nodup_handles (hs : s.Sound) : s.handles.Nodup := by
  rw [handles, List.Nodup, List.pairwise_map]
  exact (toList_ascending hs).imp fun hlt he => by simp [he] at hlt

theorem length_handles (hs : s.Sound) : s.handles.length = s.size := by
  have hcount : ∀ (cells : List (Cell α)) (i : Nat),
      ((cells.zipIdx i).filterMap fun place =>
        place.1.content.map fun x =>
          ((⟨UInt32.ofNat place.2, place.1.generation⟩ : Handle), x)).length =
        cells.countP isHeld := by
    intro cells
    induction cells with
    | nil => simp
    | cons cell cells ih =>
      intro i
      cases hn : cell.content <;> simp [List.zipIdx_cons, isHeld, hn] <;> exact ih (i + 1)
  rw [hs.size, handles, List.length_map]
  exact hcount _ 0

theorem length_eq_size (hs : s.Sound) {hs' : List Handle} (hn : hs'.Nodup)
    (hm : ∀ h, h ∈ hs' ↔ (s.get? h).isSome) : hs'.length = s.size := by
  rw [← length_handles hs]
  exact ((List.perm_ext_iff_of_nodup hn (nodup_handles hs)).2 fun h => by
    rw [hm, mem_handles_iff hs]).length_eq

theorem size_congr {t : Slab α} (hs : s.Sound) (ht : t.Sound) (hget : t.get? = s.get?) :
    t.size = s.size := by
  rw [← length_handles hs]
  exact (length_eq_size ht (nodup_handles hs) fun h => by rw [mem_handles_iff hs, hget]).symm

end Contents

end IndexedStore.Slab
