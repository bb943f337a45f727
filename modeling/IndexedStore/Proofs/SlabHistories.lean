import Mathlib.Data.Nat.ModEq
import IndexedStore.Proofs.Slabs

/-!
# Histories of a slab

A ledger keeps what came into each slot last and how often the slot was vacated. It reads the
requests to a slab and their answers, never the slab itself. After any run the slab follows its
ledger: a handle reaches the content of an occupied slot exactly if the slot was vacated as often as
the generation of the handle says, counted in full turns of the generations.
-/
namespace IndexedStore

namespace Slab

variable {α : Type}

def edit (s : Slab α) (h : Handle) (change : α → α) : Slab α :=
  match s.get? h with
  | some x => s.replace h (change x)
  | none => s

inductive Request (α : Type) where
  | insert (x : α)
  | remove (h : Handle)
  | edit (h : Handle) (change : α → α)
  | clear
  | drain

inductive Answer (α : Type) where
  /-- The handle of a new content. -/
  | issued (h : Handle)
  /-- What the handle of the request reached. -/
  | reached (x : Option α)
  | emptied (xs : List α)

def serve (s : Slab α) : Request α → Checked (Answer α × Slab α)
  | .insert x => do
    let (h, s) ← s.insert x
    return (.issued h, s)
  | .remove h => do
    let (x, s) ← s.remove h
    return (.reached x, s)
  | .edit h change => return (.reached (s.get? h), s.edit h change)
  | .clear => return (.emptied [], s.clear)
  | .drain => return (.emptied s.drain.1, s.drain.2)

/-- An insertion asks for room; nothing else asks for anything. -/
def Request.Allowed (s : Slab α) : Request α → Prop
  | insert _ => s.HasRoom
  | _ => True

end Slab

/-- What came into each slot last, and how often the slot was vacated. -/
structure Ledger (α : Type) where
  occupant : UInt32 → Option α
  vacated : UInt32 → Nat

namespace Ledger

variable {α : Type} {l m n : Ledger α} {slot : UInt32}

def blank : Ledger α := ⟨fun _ => none, fun _ => 0⟩

def place (l : Ledger α) (slot : UInt32) (x : α) : Ledger α :=
  { l with occupant := Function.update l.occupant slot (some x) }

def change (l : Ledger α) (slot : UInt32) (change : α → α) : Ledger α :=
  { l with occupant := Function.update l.occupant slot ((l.occupant slot).map change) }

def vacate (l : Ledger α) (slot : UInt32) : Ledger α :=
  ⟨Function.update l.occupant slot none, Function.update l.vacated slot (l.vacated slot + 1)⟩

def vacateAll (l : Ledger α) : Ledger α :=
  ⟨fun _ => none, fun slot => l.vacated slot + if (l.occupant slot).isSome then 1 else 0⟩

/-- Takes down a request that was answered. A removal or an edit that reached nothing leaves no
trace. -/
def record (l : Ledger α) : Slab.Request α → Slab.Answer α → Ledger α
  | .insert x, .issued h => l.place h.slot x
  | .remove h, .reached (some _) => l.vacate h.slot
  | .edit h f, .reached (some _) => l.change h.slot f
  | .clear, _ | .drain, _ => l.vacateAll
  | _, _ => l

/-- The occupants of the first `slots` slots in their order, each with the handle that has the count
of its slot for a generation. -/
def live (l : Ledger α) (slots : Nat) : List (Handle × α) :=
  (List.range slots).filterMap fun i =>
    (l.occupant (.ofNat i)).map fun x => (⟨.ofNat i, .ofNat (l.vacated (.ofNat i))⟩, x)

/-- Since an earlier ledger a slot was vacated, or else it is still occupied if it was then. -/
def Since (l m : Ledger α) (slot : UInt32) : Prop :=
  l.vacated slot < m.vacated slot ∨
    l.vacated slot = m.vacated slot ∧ ((l.occupant slot).isSome → (m.occupant slot).isSome)

theorem Since.refl (l : Ledger α) (slot : UInt32) : l.Since l slot := .inr ⟨rfl, id⟩

theorem Since.trans (hlm : l.Since m slot) (hmn : m.Since n slot) : l.Since n slot := by
  unfold Since at *
  rcases hlm with hlm | ⟨hlm, hl⟩
  · left
    omega
  · rcases hmn with hmn | ⟨hmn, hm⟩
    · left
      omega
    · exact .inr ⟨hlm.trans hmn, fun h => hm (hl h)⟩

theorem Since.le (h : l.Since m slot) : l.vacated slot ≤ m.vacated slot := by
  unfold Since at h
  omega

theorem since_place (x : α) (other : UInt32) : l.Since (l.place other x) slot := by
  refine .inr ⟨rfl, fun h => ?_⟩
  by_cases hs : slot = other <;> simp [place, hs, h]

theorem since_change (f : α → α) (other : UInt32) : l.Since (l.change other f) slot := by
  refine .inr ⟨rfl, fun h => ?_⟩
  by_cases hs : slot = other
  · subst hs
    simpa [change] using h
  · simp [change, hs, h]

theorem since_vacate (other : UInt32) : l.Since (l.vacate other) slot := by
  by_cases hs : slot = other
  · subst hs
    left
    simp [vacate]
  · exact .inr ⟨by simp [vacate, hs], by simp [vacate, hs]⟩

theorem since_vacateAll : l.Since l.vacateAll slot := by
  by_cases hs : (l.occupant slot).isSome
  · left
    simp [vacateAll, hs]
  · exact .inr ⟨by simp [vacateAll, hs], fun h => absurd h hs⟩

/-- No request takes a content out of its slot but by vacating it. -/
theorem since_record (request : Slab.Request α) (answer : Slab.Answer α) :
    l.Since (l.record request answer) slot := by
  fun_cases record l request answer with
  | case1 x h => exact since_place x h.slot
  | case2 h x => exact since_vacate h.slot
  | case3 h f x => exact since_change f h.slot
  | case4 | case5 => exact since_vacateAll
  | case6 => exact .refl l slot

end Ledger

namespace Slab

variable {α : Type} {s t u : Slab α} {l m n : Ledger α} {h : Handle}

def run : List (Request α) → Slab α × Ledger α → Checked (Slab α × Ledger α)
  | [], state => .ok state
  | request :: rest, (s, l) => do
    let (answer, s) ← s.serve request
    run rest (s, l.record request answer)

def Admissible : List (Request α) → Slab α → Prop
  | [], _ => True
  | request :: rest, s =>
    request.Allowed s ∧ ∀ answer t, s.serve request = .ok (answer, t) → Admissible rest t

theorem cells_size_insert_le {x : α} (hinsert : s.insert x = .ok (h, t)) :
    t.cells.size ≤ s.cells.size + 1 := by
  rw [insert] at hinsert
  split at hinsert
  · split at hinsert
    · obtain ⟨-, rfl⟩ := Prod.mk.inj (Except.ok.inj hinsert)
      simp
    · cases hinsert
  · obtain ⟨-, rfl⟩ := Prod.mk.inj (Except.ok.inj hinsert)
    simp

theorem cells_size_remove {x : Option α} (hremove : s.remove h = .ok (x, t)) :
    t.cells.size = s.cells.size := by
  rw [remove] at hremove
  split at hremove
  · obtain ⟨-, rfl⟩ := Prod.mk.inj (Except.ok.inj hremove)
    rfl
  · obtain ⟨size, -, hremove⟩ := Checked.bind_eq_ok.1 hremove
    obtain ⟨-, rfl⟩ := Prod.mk.inj (Except.ok.inj hremove)
    simp

theorem cells_size_edit (f : α → α) : (s.edit h f).cells.size = s.cells.size := by
  rw [edit]
  split
  · rw [replace]
    split <;> simp
  · rfl

theorem cells_size_serve_le {request : Request α} {answer : Answer α}
    (hserve : s.serve request = .ok (answer, t)) : t.cells.size ≤ s.cells.size + 1 := by
  cases request with
  | insert x =>
    obtain ⟨⟨h, u⟩, hinsert, hu⟩ := Checked.bind_eq_ok.1 hserve
    obtain ⟨-, rfl⟩ : .issued h = answer ∧ u = t := by simpa using hu
    exact cells_size_insert_le hinsert
  | remove h =>
    obtain ⟨⟨x, u⟩, hremove, hu⟩ := Checked.bind_eq_ok.1 hserve
    obtain ⟨-, rfl⟩ : .reached x = answer ∧ u = t := by simpa using hu
    exact Nat.le_succ_of_le (cells_size_remove hremove).le
  | edit h f =>
    obtain ⟨-, rfl⟩ := Prod.mk.inj (Except.ok.inj hserve)
    exact Nat.le_succ_of_le (cells_size_edit f).le
  | clear | drain =>
    obtain ⟨-, rfl⟩ := Prod.mk.inj (Except.ok.inj hserve)
    simp [drain, clear]

/-- As many requests as there are slot numbers left always find room. -/
theorem admissible_of_length {requests : List (Request α)}
    (hroom : s.cells.size + requests.length ≤ UInt32.size) : Admissible requests s := by
  induction requests generalizing s with
  | nil => trivial
  | cons request rest ih =>
    rw [List.length_cons] at hroom
    refine ⟨?_, fun answer t hserve => ih ?_⟩
    · cases request with
      | insert x => exact .inr (by omega)
      | remove | edit | clear | drain => trivial
    · have hsize := cells_size_serve_le hserve
      omega

/-! ## Cells and their ledger -/

/-- Every cell holds the occupant of its slot, in the generation that the count of the slot gives. -/
structure Records (s : Slab α) (l : Ledger α) : Prop where
  sound : s.Sound
  cell : ∀ slot : UInt32, slot.toNat < s.cells.size →
    s.cells[slot.toNat]? = some ⟨.ofNat (l.vacated slot), l.occupant slot⟩
  unopened : ∀ slot : UInt32, s.cells.size ≤ slot.toNat →
    l.occupant slot = none ∧ l.vacated slot = 0

theorem empty_records : (empty : Slab α).Records .blank where
  sound := empty_sound
  cell slot h := by simp [empty] at h
  unopened _ _ := ⟨rfl, rfl⟩

namespace Records

theorem set (hr : s.Records l) (ht : t.Sound) {slot : UInt32} (hb : slot.toNat < s.cells.size)
    (hcells : t.cells =
      s.cells.setIfInBounds slot.toNat ⟨.ofNat (m.vacated slot), m.occupant slot⟩)
    (hoff : ∀ other ≠ slot,
      m.vacated other = l.vacated other ∧ m.occupant other = l.occupant other) : t.Records m := by
  have hsize : t.cells.size = s.cells.size := by rw [hcells, Array.size_setIfInBounds]
  refine ⟨ht, fun other ho => ?_, fun other ho => ?_⟩
  · rw [hsize] at ho
    by_cases he : other = slot
    · subst he
      simp [hcells, ho]
    · have hne : slot.toNat ≠ other.toNat := fun h => he (UInt32.toNat_inj.1 h.symm)
      rw [hcells, Array.getElem?_setIfInBounds_ne hne, hr.cell other ho, (hoff other he).1,
        (hoff other he).2]
  · rw [hsize] at ho
    have he : other ≠ slot := by
      rintro rfl
      omega
    rw [(hoff other he).1, (hoff other he).2]
    exact hr.unopened other ho

theorem drain_eq : s.drain.1 = s.toList.map Prod.snd := by
  rw [toList, List.map_filterMap]
  calc s.cells.toList.filterMap Cell.content
      = (s.cells.toList.zipIdx.map Prod.fst).filterMap Cell.content := by
        rw [List.zipIdx_map_fst]
    _ = _ := by
        rw [List.filterMap_map]
        refine congrArg (List.filterMap · _) (funext fun place => ?_)
        cases hc : place.1.content <;> simp [hc]

theorem lt_of_get? {x : α} (hx : s.get? h = some x) : h.slot.toNat < s.cells.size := by
  obtain ⟨cell, hc, -⟩ := Slab.get?_eq_some_iff.1 hx
  exact (Array.getElem?_eq_some_iff.1 hc).1

variable (hr : s.Records l)
include hr

theorem get?_eq_some_iff {x : α} : s.get? h = some x ↔
    l.occupant h.slot = some x ∧ l.vacated h.slot ≡ h.generation.toNat [MOD 2 ^ 32] := by
  have hgen : UInt32.ofNat (l.vacated h.slot) = h.generation ↔
      l.vacated h.slot ≡ h.generation.toNat [MOD 2 ^ 32] := by
    rw [← UInt32.toNat_inj, UInt32.toNat_ofNat', Nat.ModEq,
      Nat.mod_eq_of_lt h.generation.toNat_lt]
  rw [Slab.get?_eq_some_iff, ← hgen]
  by_cases hb : h.slot.toNat < s.cells.size
  · rw [hr.cell _ hb]
    simp [and_comm]
  · have hnone := (hr.unopened h.slot (by omega)).1
    simp [hb, hnone]

theorem insert (hroom : s.HasRoom) (x : α) :
    ∃ h t, s.insert x = .ok (h, t) ∧ t.Records (l.place h.slot x) := by
  obtain ⟨h, t, hinsert, ht, -, -⟩ := insert_sound hr.sound hroom x
  refine ⟨h, t, hinsert, ?_⟩
  rw [Slab.insert] at hinsert
  cases hv : s.vacant with
  | cons slot vacant =>
    obtain ⟨cell, hc, hn⟩ := (hr.sound.vacant slot).1 (by simp [hv])
    have hb : slot.toNat < s.cells.size := (Array.getElem?_eq_some_iff.1 hc).1
    have hcell : cell.generation = .ofNat (l.vacated slot) := by
      have := hr.cell slot hb
      rw [hc, Option.some.injEq] at this
      rw [this]
    simp only [hv, hc, Except.ok.injEq, Prod.mk.injEq] at hinsert
    obtain ⟨rfl, rfl⟩ := hinsert
    refine hr.set ht hb ?_ fun other ho => ?_
    · simp [Ledger.place, hcell]
    · simp [Ledger.place, ho]
  | nil =>
    have hb : s.cells.size < UInt32.size := hroom.resolve_left (by simp [hv])
    have hslot : (UInt32.ofNat s.cells.size).toNat = s.cells.size := UInt32.toNat_ofNat_of_lt' hb
    simp only [hv, Except.ok.injEq, Prod.mk.injEq] at hinsert
    obtain ⟨rfl, rfl⟩ := hinsert
    have hfresh := hr.unopened (.ofNat s.cells.size) (by omega)
    refine ⟨ht, fun other ho => ?_, fun other ho => ?_⟩
    · by_cases he : other = .ofNat s.cells.size
      · subst he
        simp [Ledger.place, hslot, hfresh.2]
      · have hne : other.toNat ≠ s.cells.size := fun h => he (UInt32.toNat_inj.1 (by omega))
        have hlt : other.toNat < s.cells.size := by
          simp only [Array.size_push] at ho
          omega
        simp [Ledger.place, he, hne, Array.getElem?_push, hr.cell other hlt]
    · simp only [Array.size_push] at ho
      have he : other ≠ .ofNat s.cells.size := by
        rintro rfl
        omega
      simpa [Ledger.place, he] using hr.unopened other (by omega)

/-- The generation of a handle that reaches something is what the count of its slot gives. -/
theorem generation_eq {x : α} (hx : s.get? h = some x) :
    UInt32.ofNat (l.vacated h.slot) = h.generation := by
  obtain ⟨cell, hc, hg, -⟩ := Slab.get?_eq_some_iff.1 hx
  rw [hr.cell _ (lt_of_get? hx), Option.some.injEq] at hc
  rw [← hg, ← hc]

theorem remove {x : α} (hx : s.get? h = some x) :
    ∃ t, s.remove h = .ok (some x, t) ∧ t.Records (l.vacate h.slot) := by
  obtain ⟨t, hremove, ht, -⟩ := remove_sound hr.sound hx
  refine ⟨t, hremove, hr.set ht (lt_of_get? hx) ?_ fun other ho => ?_⟩
  · rw [Slab.remove, hx] at hremove
    obtain ⟨size, -, hremove⟩ := Checked.bind_eq_ok.1 hremove
    simp only [Checked.pure_eq_ok, Except.ok.injEq, Prod.mk.injEq, true_and] at hremove
    subst hremove
    simp [Ledger.vacate, UInt32.ofNat_add, hr.generation_eq hx]
  · simp [Ledger.vacate, ho]

theorem edit {x : α} (hx : s.get? h = some x) (f : α → α) :
    (s.edit h f).Records (l.change h.slot f) := by
  have ht := (replace_sound hr.sound hx (f x)).1
  have hocc := (hr.get?_eq_some_iff.1 hx).1
  rw [Slab.edit, hx]
  refine hr.set ht (lt_of_get? hx) ?_ fun other ho => ?_
  · simp [replace_eq hx, Ledger.change, hocc, hr.generation_eq hx]
  · simp [Ledger.change, ho]

theorem clear : s.clear.Records l.vacateAll := by
  refine ⟨clear_sound hr.sound, fun slot hb => ?_, fun slot hb => ?_⟩
  · have hb : slot.toNat < s.cells.size := by simpa [Slab.clear] using hb
    cases ho : l.occupant slot <;>
      simp [Slab.clear, hr.cell slot hb, Cell.vacate, Ledger.vacateAll, ho, UInt32.ofNat_add]
  · have hb : s.cells.size ≤ slot.toNat := by simpa [Slab.clear] using hb
    simp [Ledger.vacateAll, hr.unopened slot hb]

/-- Every request is answered, and the ledger that takes it down records the slab after it. -/
theorem serve {request : Request α} (ha : request.Allowed s) :
    ∃ answer t, s.serve request = .ok (answer, t) ∧ t.Records (l.record request answer) := by
  cases request with
  | insert x =>
    obtain ⟨h, t, hinsert, ht⟩ := hr.insert ha x
    exact ⟨.issued h, t, by simp [Slab.serve, hinsert], ht⟩
  | remove h =>
    cases hx : s.get? h with
    | none => exact ⟨.reached none, s, by simp [Slab.serve, remove_of_absent hx], hr⟩
    | some x =>
      obtain ⟨t, hremove, ht⟩ := hr.remove hx
      exact ⟨.reached (some x), t, by simp [Slab.serve, hremove], ht⟩
  | edit h f =>
    cases hx : s.get? h with
    | none => exact ⟨.reached none, s, by simp [Slab.serve, Slab.edit, hx], hr⟩
    | some x => exact ⟨.reached (some x), s.edit h f, by simp [Slab.serve, hx], hr.edit hx f⟩
  | clear => exact ⟨_, _, rfl, hr.clear⟩
  | drain => exact ⟨_, _, rfl, hr.clear⟩

theorem toList_eq : s.toList = l.live s.cells.size := by
  have hcells : s.cells.toList.zipIdx = (List.range s.cells.size).map fun i =>
      (⟨.ofNat (l.vacated (.ofNat i)), l.occupant (.ofNat i)⟩, i) := by
    refine List.ext_getElem (by simp) fun i hi _ => ?_
    have hi : i < s.cells.size := by simpa using hi
    have hcell := hr.cell (.ofNat i) (by rwa [hr.sound.toNat_ofNat hi])
    rw [hr.sound.toNat_ofNat hi, Array.getElem?_eq_getElem hi, Option.some.injEq] at hcell
    simp [hcell]
  rw [toList, hcells, List.filterMap_map]
  rfl

theorem mem_vacant_iff {slot : UInt32} :
    slot ∈ s.vacant ↔ slot.toNat < s.cells.size ∧ l.occupant slot = none := by
  rw [hr.sound.vacant]
  by_cases hb : slot.toNat < s.cells.size
  · rw [hr.cell slot hb]
    simp [hb]
  · simp [hb]

end Records

/-! ## Runs -/

/-- What a slab does according to the ledger of its requests. -/
structure Follows (s : Slab α) (l : Ledger α) : Prop where
  /-- A handle reaches what came into its slot last, if that is still there and the slot was vacated
  as often as the generation of the handle says, up to full turns. -/
  reaches : ∀ h x, s.get? h = some x ↔
    l.occupant h.slot = some x ∧ l.vacated h.slot ≡ h.generation.toNat [MOD 2 ^ 32]
  /-- A new content comes into a slot without an occupant, under the count of the slot. -/
  issues : s.HasRoom → ∀ x, ∃ h t, s.insert x = .ok (h, t) ∧ l.occupant h.slot = none ∧
    l.vacated h.slot ≡ h.generation.toNat [MOD 2 ^ 32]
  /-- A removal answers what its handle reaches, and nothing else is gone with it. -/
  removes : ∀ h, ∃ t, s.remove h = .ok (s.get? h, t) ∧ t.get? = Function.update s.get? h none
  /-- No two contents have one handle. -/
  distinct : (s.toList.map Prod.fst).Nodup
  /-- No slot is vacant twice. -/
  nodup : s.vacant.Nodup
  vacant : ∀ slot, slot ∈ s.vacant ↔ slot.toNat < s.cells.size ∧ l.occupant slot = none
  opened : ∀ slot, (l.occupant slot).isSome → slot.toNat < s.cells.size
  iterated : s.toList = l.live s.cells.size
  drained : s.drain.1 = (l.live s.cells.size).map Prod.snd
  size : s.size = (l.live s.cells.size).length

theorem Records.follows (hr : s.Records l) : s.Follows l where
  reaches _ _ := hr.get?_eq_some_iff
  issues hroom x := by
    obtain ⟨h, t, hinsert, -, hfree, hget⟩ := insert_sound hr.sound hroom x
    obtain ⟨h', t', hinsert', ht⟩ := hr.insert hroom x
    obtain ⟨rfl, rfl⟩ : h = h' ∧ t = t' := by simpa using hinsert.symm.trans hinsert'
    have hcount := (ht.get?_eq_some_iff.1 (by rw [hget, Function.update_self])).2
    refine ⟨h, t, hinsert, Option.eq_none_iff_forall_ne_some.2 fun y hy => ?_, hcount⟩
    rw [hr.get?_eq_some_iff.2 ⟨hy, hcount⟩] at hfree
    cases hfree
  removes h := by
    obtain ⟨t, hremove, -, hget⟩ := exists_remove hr.sound h
    exact ⟨t, hremove, hget⟩
  distinct := nodup_handles hr.sound
  nodup := hr.sound.nodup
  vacant _ := hr.mem_vacant_iff
  opened slot ho := by
    by_contra hb
    rw [(hr.unopened slot (by omega)).1] at ho
    cases ho
  iterated := hr.toList_eq
  drained := by rw [drain_eq, hr.toList_eq]
  size := by rw [← hr.toList_eq, ← length_handles hr.sound, handles, List.length_map]

theorem exists_run (hr : s.Records l) {requests : List (Request α)} (ha : Admissible requests s) :
    ∃ t m, run requests (s, l) = .ok (t, m) ∧ t.Records m := by
  induction requests generalizing s l with
  | nil => exact ⟨s, l, rfl, hr⟩
  | cons request rest ih =>
    obtain ⟨hallowed, hrest⟩ := ha
    obtain ⟨answer, u, hserve, hu⟩ := hr.serve hallowed
    obtain ⟨t, m, hrun, ht⟩ := ih hu (hrest answer u hserve)
    exact ⟨t, m, by rw [run, hserve]; exact hrun, ht⟩

theorem since_run {requests : List (Request α)} (hrun : run requests (s, l) = .ok (t, m))
    (slot : UInt32) : l.Since m slot := by
  induction requests generalizing s l with
  | nil =>
    obtain ⟨-, rfl⟩ : s = t ∧ l = m := by simpa [run] using hrun
    exact .refl l slot
  | cons request rest ih =>
    obtain ⟨⟨answer, u⟩, hserve, hrun⟩ := Checked.bind_eq_ok.1 hrun
    exact (l.since_record request answer).trans (ih hrun)

/-- A handle that lost its content reaches another one only after full turns of its slot: in three
states that runs lead to one from another, in the first and the last of which it reaches
something. -/
def ReturnsByTurns (s : Slab α) (l : Ledger α) : Prop :=
  ∀ h, (s.get? h).isSome →
    ∀ lost t m, Admissible lost s → run lost (s, l) = .ok (t, m) → t.get? h = none →
      ∀ again u n, Admissible again t → run again (t, m) = .ok (u, n) → (u.get? h).isSome →
        ∃ k > 0, n.vacated h.slot = l.vacated h.slot + k * 2 ^ 32

theorem Records.returnsByTurns (hr : s.Records l) : s.ReturnsByTurns l := by
  intro h hheld lost t m halost hlost hnone again u n haagain hagain hback
  obtain ⟨t', m', hrun, ht⟩ := exists_run hr halost
  obtain ⟨rfl, rfl⟩ : t = t' ∧ m = m' := by simpa using hlost.symm.trans hrun
  obtain ⟨u', n', hrun', hu⟩ := exists_run ht haagain
  obtain ⟨rfl, rfl⟩ : u = u' ∧ n = n' := by simpa using hagain.symm.trans hrun'
  obtain ⟨x, hx⟩ := Option.isSome_iff_exists.1 hheld
  obtain ⟨y, hy⟩ := Option.isSome_iff_exists.1 hback
  obtain ⟨hocc, hmod⟩ := hr.get?_eq_some_iff.1 hx
  obtain ⟨-, hmod'⟩ := hu.get?_eq_some_iff.1 hy
  have hlt : l.vacated h.slot < m.vacated h.slot := by
    refine (since_run hlost h.slot).resolve_right fun ⟨hsame, hkept⟩ => ?_
    obtain ⟨z, hz⟩ := Option.isSome_iff_exists.1 (hkept (by simp [hocc]))
    rw [ht.get?_eq_some_iff.2 ⟨hz, hsame ▸ hmod⟩] at hnone
    cases hnone
  have hle := (since_run hagain h.slot).le
  obtain ⟨k, hk⟩ := (Nat.modEq_iff_dvd' (by omega)).1 (hmod.trans hmod'.symm)
  refine ⟨k, ?_, by omega⟩
  by_contra hzero
  obtain rfl : k = 0 := by omega
  omega

/-- Every run of a fresh slab that finds room is served, and leaves a slab that follows its ledger.
A stale handle reaches something only after full turns of the generation. -/
theorem run_follows {requests : List (Request α)} (ha : Admissible requests empty) :
    ∃ s l, run requests (empty, .blank) = .ok (s, l) ∧ s.Follows l ∧ s.ReturnsByTurns l := by
  obtain ⟨s, l, hrun, hr⟩ := exists_run empty_records ha
  exact ⟨s, l, hrun, hr.follows, hr.returnsByTurns⟩

/-- Two contents, the first of which leaves its slot to a third; then all go, and a fourth comes. -/
def sampleRequests : List (Request Nat) :=
  [.insert 7, .insert 8, .remove ⟨0, 0⟩, .insert 9, .edit ⟨0, 1⟩ (· + 1), .drain, .insert 5]

/-- A slot that was used twice is reached in its latest generation only. -/
theorem run_follows_of_reuse : Admissible sampleRequests empty ∧
    ∃ s l, run sampleRequests (empty, .blank) = .ok (s, l) ∧ s.Follows l ∧ s.ReturnsByTurns l ∧
      s.get? ⟨1, 1⟩ = some 5 ∧ s.get? ⟨1, 0⟩ = none ∧ l.vacated 0 = 2 ∧ l.vacated 1 = 1 := by
  have ha : Admissible sampleRequests empty := admissible_of_length (by decide)
  obtain ⟨s, l, hrun, hfollows, hreturns⟩ := run_follows ha
  have hfacts : ((run sampleRequests (empty, .blank)).map fun (s, l) =>
      (s.get? ⟨1, 1⟩, s.get? ⟨1, 0⟩, l.vacated 0, l.vacated 1)) = .ok (some 5, none, 2, 1) := by
    decide +kernel
  rw [hrun] at hfacts
  exact ⟨ha, s, l, hrun, hfollows, hreturns, by simpa [Except.map] using hfacts⟩

end Slab
end IndexedStore
