import IndexedStore.Proofs.Invariants
import IndexedStore.Proofs.Lookups

/-!
# Indices after a rollback

A handle that is taken out of an index and put back under its old entry comes last where it stood
before: in the chain of its hash, or in the row of its key. Nothing else changes, so that the index
answers as before exactly for the probes that met the handle last already. In the other kinds of
index there is no order among handles to lose.
-/
namespace IndexedStore

/-- The items with one of them moved to the end, if it is there. -/
def sendBack {α : Type} [DecidableEq α] (x : α) (items : List α) : List α :=
  if x ∈ items then items.erase x ++ [x] else items

section SendBack

variable {α : Type} [DecidableEq α] {x : α} {items : List α}

theorem erase_append_new (hx : x ∉ items) : (items ++ [x]).erase x = items := by
  rw [List.erase_append_right _ hx, List.erase_cons_head, List.append_nil]

theorem length_sendBack : (sendBack x items).length = items.length := by
  rw [sendBack]
  split
  next hx =>
    have hpos := List.length_pos_of_mem hx
    rw [List.length_append, List.length_erase_of_mem hx, List.length_singleton]
    omega
  next => rfl

theorem filter_sendBack (p : α → Bool) :
    (sendBack x items).filter p = sendBack x (items.filter p) := by
  rw [sendBack, sendBack]
  by_cases hx : x ∈ items
  · cases hp : p x with
    | true => simp [hx, hp, List.erase_filter]
    | false =>
      rw [if_pos hx, List.filter_append, ← List.erase_filter,
        List.erase_of_not_mem (by simp [hp])]
      simp [hp]
  · simp [hx]

theorem sendBack_eq_self_iff (hn : items.Nodup) :
    sendBack x items = items ↔ (x ∈ items → items.getLast? = some x) := by
  rw [sendBack]
  constructor
  · intro heq hx
    rw [if_pos hx] at heq
    rw [← heq]
    simp
  · intro hlast
    split
    next hx =>
      obtain ⟨front, rfl⟩ := List.getLast?_eq_some_iff.1 (hlast hx)
      have hfront : x ∉ front := fun hm =>
        (List.nodup_append.1 hn).2.2 x hm x (by simp) rfl
      rw [List.erase_append_right _ hfront]
      simp
    next => rfl

theorem flatMap_sendBack_eq_iff {κ : Type} {rows : List (κ × List α)} :
    (rows.flatMap fun row => sendBack x row.2) = rows.flatMap Prod.snd ↔
      ∀ row ∈ rows, sendBack x row.2 = row.2 := by
  induction rows with
  | nil => simp
  | cons row rows ih =>
    simp only [List.flatMap_cons, List.forall_mem_cons]
    rw [← ih]
    constructor
    · exact fun heq => List.append_inj heq length_sendBack
    · rintro ⟨hrow, hrows⟩
      rw [hrow, hrows]

end SendBack

namespace HashChains

variable {c : HashChains} {source : Source} {h : Handle} {e : Entry} {hash : UInt32}

/-- A handle that stands once in the chains is gone from all of them after a removal. -/
theorem Filed.chain_pull_eq_erase (hf : c.Filed source) (hs : source h = some e) (k : UInt32) :
    (c.pull (c.projection.keyOf e).hash h).chain k = (c.chain k).erase h := by
  rw [hf.chain_pull]
  split
  next hk => rw [hk]
  next hk =>
    refine (List.erase_of_not_mem fun hm => hk ?_).symm
    exact ((hf.mem_chain_iff hs).1 hm).2.symm

end HashChains

namespace KeyRows

variable {r : KeyRows} {source : Source} {h : Handle} {e : Entry}

theorem Filed.row_pull_eq_erase (hf : r.Filed source) (hs : source h = some e) (k : Key) :
    (r.pull (r.projection.keyOf e) h).row k = (r.row k).erase h := by
  rw [hf.row_pull]
  split
  next hk => rw [row_congr hk]
  next hk =>
    refine (List.erase_of_not_mem fun hm => hk ?_).symm
    exact Std.OrientedCmp.eq_symm ((hf.mem_row_iff hs).1 hm).2

end KeyRows

namespace Index

variable {i j : Index} {source after : Source} {shape : Shape} {h : Handle} {e other old new : Entry}

/-- The handles in order of arrival among which an index puts the handle of an entry. -/
def shelf (e : Entry) : Index → List Handle
  | .hash c => c.chain (c.projection.keyOf e).hash
  | .tree r => r.row (r.projection.keyOf e)
  | .list _ | .array _ | .heap _ => []

def shares (a b : Entry) : Index → Bool
  | .hash c => (c.projection.keyOf a).hash = (c.projection.keyOf b).hash
  | .tree r => Key.compare (r.projection.keyOf a) (r.projection.keyOf b) = .eq
  | .list _ | .array _ | .heap _ => false

theorem shares_congr (hb : j.blank = i.blank) : j.shares e other = i.shares e other := by
  have hblank (i : Index) : i.blank.shares e other = i.shares e other := by cases i <;> rfl
  rw [← hblank, hb, hblank]

theorem mem_shelf_iff (hi : i.Sound source) (hh : source h = some e) :
    h ∈ i.shelf other ↔ i.shares e other = true := by
  have hm : h ∈ i.handles := (hi.complete h).2 (by simp [hh])
  cases i with
  | hash c =>
    have hf : c.Filed source := hi.filed
    simp only [shelf, shares, decide_eq_true_eq]
    exact (hf.mem_chain_iff hh).trans (and_iff_right hm)
  | tree r =>
    have hf : r.Filed source := hi.filed
    simp only [shelf, shares, decide_eq_true_eq]
    exact (hf.mem_row_iff hh).trans (and_iff_right hm)
  | list | array | heap => simp [shelf, shares]

theorem not_mem_shelf (hi : i.Sound source) (hh : source h = none) : h ∉ i.shelf other := by
  have hm := hi.not_mem_handles hh
  cases i with
  | hash c =>
    have hf : c.Filed source := hi.filed
    exact fun hs => hm (hf.mem_handles_iff.2 ⟨_, hs⟩)
  | tree r =>
    have hf : r.Filed source := hi.filed
    exact fun hs => hm (hf.mem_handles_iff.2 ⟨_, hs⟩)
  | list | array | heap => simp [shelf]

theorem kind_congr (hb : j.blank = i.blank) : j.kind = i.kind := by
  rw [← kind_blank, hb, kind_blank]

theorem shelf_of_remove (hi : i.Sound source) (hr : i.Reads shape) (he : e.Conforms shape)
    (hh : source h = some e) (hremove : i.remove h e = .ok j) (other : Entry) :
    j.shelf other = (i.shelf other).erase h := by
  cases hi.removed hr he hh hremove with
  | @hash c =>
    have hf : c.Filed source := hi.filed
    exact hf.chain_pull_eq_erase hh _
  | @tree r =>
    have hf : r.Filed source := hi.filed
    exact hf.row_pull_eq_erase hh _
  | list | array | heap => rfl

theorem shelf_of_add (hi : i.Sound source) (hr : i.Reads shape) (hh : source h = none)
    (he : e.Conforms shape) (hadd : i.add after h e = .ok (.ok j)) (other : Entry) :
    j.shelf other = if i.shares e other then i.shelf other ++ [h] else i.shelf other := by
  cases hi.added hr hh he hadd with
  | @hash c =>
    have hf : c.Filed source := hi.filed
    simp only [shelf, shares, decide_eq_true_eq]
    have hpush : (c.push (c.projection.keyOf e).hash h).chain (c.projection.keyOf other).hash = _ :=
      hf.chain_push _
    refine hpush.trans ?_
    by_cases hk : (c.projection.keyOf e).hash = (c.projection.keyOf other).hash
    · rw [if_pos hk.symm, if_pos hk, hk]
    · rw [if_neg (Ne.symm hk), if_neg hk]
  | @tree r =>
    have hf : r.Filed source := hi.filed
    simp only [shelf, shares, decide_eq_true_eq]
    have hpush : (r.push (r.projection.keyOf e) h).row (r.projection.keyOf other) = _ :=
      hf.row_push _
    refine hpush.trans ?_
    by_cases hk : Key.compare (r.projection.keyOf e) (r.projection.keyOf other) = .eq
    · rw [if_pos (Std.OrientedCmp.eq_symm hk), if_pos hk, KeyRows.row_congr hk]
    · rw [if_neg fun h => hk (Std.OrientedCmp.eq_symm h), if_neg hk]
  | list | array | heap => rfl

/-- An index that let a handle go and took it back has it last where it stood before. -/
theorem shelf_restored {lifted undone : Index} (hi : i.Sound source) (hr : i.Reads shape)
    (hsource : source.Conforms shape) (hh : source h = some old) (hn : new.Conforms shape)
    (hlifted : i.remove h old = .ok lifted)
    (hundone : undone = lifted ∨ ∃ k,
      lifted.add (Function.update source h (some new)) h new = .ok (.ok k) ∧
        k.remove h new = .ok undone)
    (hback : undone.add source h old = .ok (.ok j)) (other : Entry) :
    j.shelf other = sendBack h (i.shelf other) := by
  have ho := hsource hh
  obtain ⟨l, hl, hsound, hb⟩ := hi.remove hr ho hh
  obtain rfl := Except.ok.inj (hlifted.symm.trans hl)
  have hlr := hr.congr hb
  have hfree : Function.update source h none h = none := Function.update_self _ _ _
  have hshelf : lifted.shelf other = (i.shelf other).erase h :=
    shelf_of_remove hi hr ho hh hlifted other
  have hafter : undone.shelf other = lifted.shelf other ∧ undone.blank = lifted.blank ∧
      undone.Sound (Function.update source h none) := by
    obtain rfl | ⟨k, hadd, hremove⟩ := hundone
    · exact ⟨rfl, rfl, hsound⟩
    · obtain ⟨hk, hkb⟩ := Store.sound_of_add (Store.conforms_erase hsource) hfree hn
        (Store.update_off _ _ _ _) hlr hsound hadd
      have hself := Function.update_self h (some new) (Function.update source h none)
      obtain ⟨u, hu, husound, hub⟩ := hk.remove (hlr.congr hkb) hn hself
      obtain rfl := Except.ok.inj (hremove.symm.trans hu)
      refine ⟨?_, hub.trans hkb, ?_⟩
      · rw [shelf_of_remove hk (hlr.congr hkb) hn hself hremove,
          shelf_of_add hsound hlr hfree hn hadd]
        have hout : h ∉ lifted.shelf other := not_mem_shelf hsound hfree
        split
        · exact erase_append_new hout
        · exact List.erase_of_not_mem hout
      · rw [Function.update_idem, Function.update_idem] at husound
        exact husound
  obtain ⟨hsame, hub, husound⟩ := hafter
  rw [shelf_of_add husound (hlr.congr hub) hfree ho hback, hsame, hshelf, shares_congr (hub.trans hb),
    sendBack]
  by_cases hm : h ∈ i.shelf other
  · rw [if_pos ((mem_shelf_iff hi hh).1 hm), if_pos hm]
  · rw [if_neg fun hs => hm ((mem_shelf_iff hi hh).2 hs), if_neg hm, List.erase_of_not_mem hm]

/-! ## Answers after a rollback -/

/-- Whether a handle comes last wherever its order of arrival shows: in the answer to every full
probe of a hash index that meets it, and in the row of its key in a tree index. -/
def Trails (source : Source) (shape : Shape) (h : Handle) (e : Entry) : Index → Prop
  | .hash c => ∀ probe found, Entry.Conforms probe shape →
      c.projection.isPartial probe = .ok false → c.slice source probe = .ok found → h ∈ found →
      found.getLast? = some h
  | .tree r => ∀ key, r.projection.project e = .ok key → (r.row key).getLast? = some h
  | .list _ | .array _ | .heap _ => True

variable {c c' : HashChains} {r r' : KeyRows} {probe : Entry}

theorem hits_hash_restored (hproj : c'.projection = c.projection)
    (hshelf : ∀ e, (hash c').shelf e = sendBack h ((hash c).shelf e))
    (hp : (c.projection.keyOf probe).isPartial = false) :
    (hash c').hits source probe = sendBack h ((hash c).hits source probe) := by
  have hchain := hshelf probe
  simp only [shelf, hproj] at hchain
  rw [hits, hits, hproj, hp, if_neg Bool.false_ne_true, if_neg Bool.false_ne_true, hchain,
    filter_sendBack]

/-- Full probes find a restored hash index as it was exactly if the handle trailed in it. -/
theorem hits_hash_restored_iff (hi : (hash c).Sound source) (hr : (hash c).Reads shape)
    (hproj : c'.projection = c.projection)
    (hshelf : ∀ e, (hash c').shelf e = sendBack h ((hash c).shelf e)) :
    (∀ probe, Entry.Conforms probe shape → c.projection.isPartial probe = .ok false →
      (hash c').hits source probe = (hash c).hits source probe) ↔
    (hash c).Trails source shape h e := by
  have hfull {probe : Entry} (hp : probe.Conforms shape)
      (hpartial : c.projection.isPartial probe = .ok false) :
      (c.projection.keyOf probe).isPartial = false := by
    have hfit : c.projection.Fits probe := hr.fits hp
    rwa [Projection.isPartial_eq hfit, Except.ok.injEq] at hpartial
  have hslice {probe : Entry} (hp : probe.Conforms shape)
      (hfull : (c.projection.keyOf probe).isPartial = false) :
      c.slice source probe = .ok ((hash c).hits source probe) := by
    rw [hits, hfull]
    exact HashChains.slice_full hi.filed (hr.fits hp) hfull
  have hnodup {probe : Entry} (hfull : (c.projection.keyOf probe).isPartial = false) :
      ((hash c).hits source probe).Nodup := by
    have hf : c.Filed source := hi.filed
    rw [hits, hfull]
    exact (OrderedTable.nodup_listAt hf.ascending hi.nodup).filter _
  constructor
  · intro hsame probe found hp hpartial hfound hm
    have hfull := hfull hp hpartial
    rw [hslice hp hfull, Except.ok.injEq] at hfound
    subst hfound
    have heq := hsame probe hp hpartial
    rw [hits_hash_restored hproj hshelf hfull] at heq
    exact (sendBack_eq_self_iff (hnodup hfull)).1 heq hm
  · intro htrails probe hp hpartial
    have hfull := hfull hp hpartial
    rw [hits_hash_restored hproj hshelf hfull]
    exact (sendBack_eq_self_iff (hnodup hfull)).2 (htrails probe _ hp hpartial (hslice hp hfull))

theorem row_restored (hf : r.Filed source) (hf' : r'.Filed source)
    (hproj : r'.projection = r.projection)
    (hshelf : ∀ e, (tree r').shelf e = sendBack h ((tree r).shelf e)) (key : Key) :
    r'.row key = sendBack h (r.row key) := by
  by_cases hkey : ∃ e, Key.compare (r.projection.keyOf e) key = .eq
  · obtain ⟨e, level⟩ := hkey
    have hrow := hshelf e
    simp only [shelf, hproj] at hrow
    rwa [KeyRows.row_congr level, KeyRows.row_congr level] at hrow
  · have hempty {t : KeyRows} (ht : t.Filed source) (hproj : t.projection = r.projection) :
        t.row key = [] := by
      refine List.eq_nil_iff_forall_not_mem.2 fun g hg => hkey ?_
      obtain ⟨e, _, _, level⟩ := ht.exists_of_mem_row hg
      exact ⟨e, hproj ▸ level⟩
    rw [hempty hf rfl, hempty hf' hproj]
    rfl

/-- The rows of a restored tree index are those from before, each with the handle last in it. -/
theorem rows_restored (hf : r.Filed source) (hf' : r'.Filed source)
    (hproj : r'.projection = r.projection)
    (hshelf : ∀ e, (tree r').shelf e = sendBack h ((tree r).shelf e)) :
    List.Forall₂ (fun a b => Key.compare a.1 b.1 = .eq ∧ b.2 = sendBack h a.2) r.rows r'.rows := by
  refine OrderedTable.forall₂_of_find? (r := fun a b => b = sendBack h a) hf.ascending
    hf'.ascending fun key => ?_
  have hrow := row_restored hf hf' hproj hshelf key
  have hne {t : KeyRows} (ht : t.Filed source) {items : List Handle}
      (hfind : OrderedTable.find? Key.compare key t.rows = some items) : items ≠ [] := by
    obtain ⟨k, hk, _⟩ := OrderedTable.exists_of_find? ht.ascending hfind
    exact ht.occupied _ hk
  rw [KeyRows.row, KeyRows.row] at hrow
  cases hfind : OrderedTable.find? Key.compare key r.rows with
  | none =>
    cases hfind' : OrderedTable.find? Key.compare key r'.rows with
    | none => exact .none
    | some items =>
      rw [hfind, hfind'] at hrow
      exact absurd hrow (hne hf' hfind')
  | some items =>
    have hlength : 0 < items.length := List.length_pos_of_ne_nil (hne hf hfind)
    cases hfind' : OrderedTable.find? Key.compare key r'.rows with
    | none =>
      rw [hfind, hfind'] at hrow
      have hzero := congrArg List.length hrow
      rw [Option.getD_some, length_sendBack, Option.getD_none, List.length_nil] at hzero
      omega
    | some items' =>
      rw [hfind, hfind'] at hrow
      exact .some hrow

section Tree

variable (hrows : List.Forall₂ (fun a b => Key.compare a.1 b.1 = .eq ∧ b.2 = sendBack h a.2)
  r.rows r'.rows)
include hrows

theorem flatMap_restored {p : Key → Bool} (hp : ∀ a b, Key.compare a b = .eq → p a = p b) :
    (r'.rows.filter fun row => p row.1).flatMap Prod.snd =
      (r.rows.filter fun row => p row.1).flatMap fun row => sendBack h row.2 := by
  generalize r.rows = before at hrows
  generalize r'.rows = after at hrows
  induction hrows with
  | nil => rfl
  | @cons a b rows rows' hab _ ih =>
    obtain ⟨level, heq⟩ := hab
    rw [List.filter_cons, List.filter_cons, ← hp a.1 b.1 level]
    split
    · rw [List.flatMap_cons, List.flatMap_cons, ih, heq]
    · exact ih

variable (hi : (tree r).Sound source) (hr : (tree r).Reads shape)
  (hsource : source.Conforms shape) (hh : source h = some e)
include hi hr hsource hh

omit hrows in
theorem trails_tree_iff : (tree r).Trails source shape h e ↔
    ∀ row ∈ r.rows, sendBack h row.2 = row.2 := by
  have hf : r.Filed source := hi.filed
  have hfit : r.projection.Fits e := hr.fits (hsource hh)
  have hnodup : ∀ row ∈ r.rows, row.2.Nodup := (List.nodup_flatMap.1 hi.nodup).1
  have hrow {row : Key × List Handle} (hm : row ∈ r.rows) (hin : h ∈ row.2) :
      r.row (r.projection.keyOf e) = row.2 := by
    obtain ⟨e', he', _, level⟩ := hf.placed row hm h hin
    obtain rfl := Option.some.inj (hh.symm.trans he')
    exact OrderedTable.listAt_of_mem hf.ascending hm level
  constructor
  · intro htrails row hm
    refine (sendBack_eq_self_iff (hnodup row hm)).2 fun hin => ?_
    rw [← hrow hm hin]
    exact htrails _ (Projection.project_eq hfit)
  · intro hall key hkey
    rw [Projection.project_eq hfit, Except.ok.injEq] at hkey
    subst hkey
    have hin : h ∈ r.handles := (hi.complete h).2 (by simp [hh])
    obtain ⟨row, hm, hin⟩ := List.mem_flatMap.1 hin
    rw [hrow hm hin]
    exact (sendBack_eq_self_iff (hnodup row hm)).1 (hall row hm) hin

/-- Probes find a restored tree index as it was exactly if the handle trailed in it. A probe without
a key sees all rows, so it sees the order in each of them. -/
theorem hits_tree_restored_iff (hproj : r'.projection = r.projection) :
    (∀ probe, Entry.Conforms probe shape →
      (tree r').hits source probe = (tree r).hits source probe) ↔
    (tree r).Trails source shape h e := by
  have hhits (probe : Entry) : (tree r').hits source probe =
      (r.rows.filter fun row => (r.projection.keyOf probe).selects row.1).flatMap
        fun row => sendBack h row.2 := by
    rw [hits, hproj]
    exact flatMap_restored hrows fun a b level => Key.selects_congr level _
  rw [trails_tree_iff hi hr hsource hh]
  constructor
  · intro hsame
    have hopen := hsame (.blank shape) (Entry.conforms_blank shape)
    have hall : (r.rows.filter fun row =>
        (r.projection.keyOf (.blank shape)).selects row.1) = r.rows := by
      refine List.filter_eq_self.2 fun row hm => Key.selects_of_unset (fun v hv => ?_) ?_
      · obtain ⟨o, _, rfl⟩ := List.mem_map.1 hv
        exact Entry.isUnset_valueAt_blank
      · have hkey := KeyRows.types_rows hi.filed hsource (Entry.conforms_blank shape) row hm
        simpa using (congrArg List.length hkey).symm
    rw [hhits, hits, hall] at hopen
    exact flatMap_sendBack_eq_iff.1 hopen
  · intro hall probe _
    rw [hhits, hits]
    exact List.flatMap_congr fun row hm => hall row (List.mem_of_mem_filter hm)

theorem handles_tree_restored (htrails : (tree r).Trails source shape h e) :
    r'.handles = r.handles := by
  have hflat := flatMap_restored hrows (p := fun _ => true) fun _ _ _ => rfl
  simp only [List.filter_true] at hflat
  rw [KeyRows.handles, hflat]
  exact flatMap_sendBack_eq_iff.2 ((trails_tree_iff hi hr hsource hh).1 htrails)

end Tree

section Kinds

theorem exists_hash_of_blank (hb : j.blank = (hash c).blank) :
    ∃ c', j = hash c' ∧ c'.projection = c.projection := by
  cases j with
  | hash c' =>
    have hfields : c'.projection = c.projection ∧ c'.unique = c.unique := by
      simpa [blank, HashChains.empty] using hb
    exact ⟨c', rfl, hfields.1⟩
  | list | tree | array | heap => cases hb

theorem exists_tree_of_blank (hb : j.blank = (tree r).blank) :
    ∃ r', j = tree r' ∧ r'.projection = r.projection := by
  cases j with
  | tree r' =>
    have hfields : r'.projection = r.projection ∧ r'.unique = r.unique := by
      simpa [blank, KeyRows.empty] using hb
    exact ⟨r', rfl, hfields.1⟩
  | list | hash | array | heap => cases hb

theorem exists_array_of_blank {g : AddressGrid} (hb : j.blank = (array g).blank) :
    ∃ g', j = array g' := by
  cases j with
  | array g' => exact ⟨g', rfl⟩
  | list | hash | tree | heap => cases hb

theorem exists_heap_of_kind (hk : i.kind.isHeap = true) : ∃ g, i = heap g := by
  cases i with
  | heap g => exact ⟨g, rfl⟩
  | list | hash | tree | array => cases hk

variable (hi : i.Sound source) (hj : j.Sound source) (hr : i.Reads shape)
  (hsource : source.Conforms shape) (hh : source h = some e) (hb : j.blank = i.blank)
  (hshelf : ∀ other, j.shelf other = sendBack h (i.shelf other))
  (hl : i.kind ≠ .list) (hk : i.kind.isHeap = false)
include hi hj hr hsource hh hb hshelf hl hk

/-- Probes find a restored index as it was exactly if the handle trailed in it. -/
theorem hits_restored_iff :
    (∀ probe, Entry.Conforms probe shape →
      (i.kind = .hash → i.projection.isPartial probe = .ok false) →
      j.hits source probe = i.hits source probe) ↔ i.Trails source shape h e := by
  cases i with
  | list l => exact absurd rfl hl
  | hash c =>
    obtain ⟨c', rfl, hproj⟩ := exists_hash_of_blank hb
    rw [← hits_hash_restored_iff hi hr hproj hshelf]
    exact ⟨fun hall probe hp hfull => hall probe hp fun _ => hfull,
      fun hall probe hp hfull => hall probe hp (hfull rfl)⟩
  | tree r =>
    obtain ⟨r', rfl, hproj⟩ := exists_tree_of_blank hb
    have hrows := rows_restored hi.filed hj.filed hproj hshelf
    rw [← hits_tree_restored_iff hrows hi hr hsource hh hproj]
    exact ⟨fun hall probe hp => hall probe hp fun hne => (by cases hne),
      fun hall probe hp _ => hall probe hp⟩
  | array g =>
    obtain ⟨g', rfl⟩ := exists_array_of_blank hb
    exact iff_of_true (fun probe _ _ => (hits_array_congr hi hj hb probe).1) trivial
  | heap g => cases hk

theorem handles_restored (hc : i.kind ≠ .hash) (htrails : i.Trails source shape h e) :
    j.handles = i.handles := by
  cases i with
  | list l => exact absurd rfl hl
  | hash c => exact absurd rfl hc
  | tree r =>
    obtain ⟨r', rfl, hproj⟩ := exists_tree_of_blank hb
    have hrows := rows_restored hi.filed hj.filed hproj hshelf
    exact handles_tree_restored hrows hi hr hsource hh htrails
  | array g =>
    obtain ⟨g', rfl⟩ := exists_array_of_blank hb
    exact (hits_array_congr hi hj hb (.blank shape)).2
  | heap g => cases hk

end Kinds

end Index
end IndexedStore
