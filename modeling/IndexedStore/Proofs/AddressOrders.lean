import IndexedStore.Proofs.IndexHistories
import IndexedStore.Proofs.Runs
import IndexedStore.Proofs.SharedContents

/-!
# Addresses in key order

The slots of an address grid are counted in 64 bits, with the limit checked once at the end; the
descriptor checks it at every axis. Both counts come to the same. The addresses are the numbers
below the count, in mixed radix: every tuple of integers inside the bounds has one of its own, every
number belongs to one tuple, and addresses stand in the lexicographic order of keys. So a walk over
the slots visits entries in key order.
-/
namespace IndexedStore

/-! ## The number of slots -/

namespace Axis

variable {axes : List Axis} {fits : Nat → Prop} [DecidablePred fits]

/-- The product of all spans, while every product on the way fits. -/
def countWhile (fits : Nat → Prop) [DecidablePred fits] (start : Nat) (axes : List Axis) :
    Option Nat :=
  axes.foldlM (fun total axis => do
    let span ← axis.span?
    if fits (total * span) then some (total * span) else none) start

/-- The slots that axes address together, counted in words of 64 bits. -/
def wordCount? (axes : List Axis) : Option Nat :=
  (countWhile (· < UInt64.size) 1 axes).filter (· ≤ maxSlots)

theorem countWhile_cons {axis : Axis} {start : Nat} :
    countWhile fits start (axis :: axes) = axis.span?.bind fun span =>
      if fits (start * span) then countWhile fits (start * span) axes else none := by
  rw [countWhile, List.foldlM_cons]
  cases axis.span? with
  | none => rfl
  | some span => by_cases hfit : fits (start * span) <;> simp [hfit, countWhile]

theorem countWhile_le {start count limit : Nat} (hstart : start ≤ limit)
    (h : countWhile (· ≤ limit) start axes = some count) : count ≤ limit := by
  induction axes generalizing start with
  | nil => exact Option.some.inj h ▸ hstart
  | cons axis axes ih =>
    rw [countWhile_cons, Option.bind_eq_some_iff] at h
    obtain ⟨span, -, h⟩ := h
    split at h
    next hlimit => exact ih hlimit h
    next => cases h

theorem foldl_eq_zero_of_le {start : Nat} {spans : List Nat} (hbeyond : maxSlots < start)
    (hle : spans.foldl (· * ·) start ≤ maxSlots) : spans.foldl (· * ·) start = 0 := by
  by_contra hne
  have hgrows := AddressGrid.le_foldl (a := start) (AddressGrid.pos_of_foldl_ne_zero hne).2
  omega

/-- Wherever the limit is checked on the way, it is the whole product that counts. -/
theorem getD_countWhile (hfits : ∀ n ≤ maxSlots, fits n) (start : Nat) :
    ((countWhile fits start axes).filter (· ≤ maxSlots)).getD 0 =
      match axes.mapM span? with
      | some spans => if spans.foldl (· * ·) start ≤ maxSlots then spans.foldl (· * ·) start else 0
      | none => 0 := by
  induction axes generalizing start with
  | nil => by_cases hle : start ≤ maxSlots <;> simp [countWhile, hle, Option.filter]
  | cons axis axes ih =>
    rw [countWhile_cons, List.mapM_cons]
    cases hspan : axis.span? with
    | none => rfl
    | some span =>
      rw [Option.bind_some]
      split
      next =>
        rw [ih]
        cases axes.mapM span? <;> rfl
      next hfit =>
        have hbeyond : maxSlots < start * span := Nat.lt_of_not_le fun hle => hfit (hfits _ hle)
        cases axes.mapM span? with
        | none => rfl
        | some spans =>
          change 0 = if spans.foldl (· * ·) (start * span) ≤ maxSlots then _ else 0
          split
          next hle => exact (foldl_eq_zero_of_le hbeyond hle).symm
          next => rfl

theorem filter_slotCount? : (slotCount? axes).filter (· ≤ maxSlots) = slotCount? axes := by
  change (countWhile (· ≤ maxSlots) 1 axes).filter (· ≤ maxSlots) = countWhile (· ≤ maxSlots) 1 axes
  cases hcount : countWhile (· ≤ maxSlots) 1 axes with
  | none => rfl
  | some count =>
    have hle := countWhile_le (by decide) hcount
    simp [Option.filter, hle]

end Axis

namespace AddressGrid

theorem capacity_empty (π : Projection) (axes : List Axis) :
    (empty π axes).capacity = (Axis.slotCount? axes).getD 0 ∧
      (empty π axes).capacity = (Axis.wordCount? axes).getD 0 := by
  have hcapacity := capacity.eq_1 (empty π axes)
  constructor
  · rw [← Axis.filter_slotCount?]
    exact hcapacity.trans (Axis.getD_countWhile (fun _ hn => hn) 1).symm
  · refine hcapacity.trans (Axis.getD_countWhile (fun n hn => ?_) 1).symm
    have hmax : Axis.maxSlots < UInt64.size := by decide
    exact Nat.lt_of_le_of_lt hn hmax

/-! ## Addresses of tuples -/

variable {g : AddressGrid} {axis : Axis} {axes : List Axis} {a b : Key} {v w : Value}
  {address : Nat}

def Inside (axes : List Axis) (ns : List Int64) : Prop :=
  List.Forall₂ (fun axis n => axis.low ≤ n ∧ n < axis.high) axes ns

theorem foldl_mul_eq (spans : List Nat) (start : Nat) :
    spans.foldl (· * ·) start = start * spans.foldl (· * ·) 1 := by
  induction spans generalizing start with
  | nil => exact (Nat.mul_one start).symm
  | cons span spans ih =>
    rw [List.foldl_cons, List.foldl_cons, ih, ih (1 * span), Nat.one_mul, Nat.mul_assoc]

theorem exists_step {span next : Nat} (hspan : axis.span? = some span)
    (hlow : address * span ≤ next) (hhigh : next < (address + 1) * span) :
    ∃ n : Int64, (axis.low ≤ n ∧ n < axis.high) ∧ step address axis (.long n) = some next := by
  obtain ⟨hwidth, -⟩ := span_eq hspan
  rw [Nat.add_mul, Nat.one_mul] at hhigh
  generalize hdigit : next - address * span = digit
  have hrange := axis.high.toInt_lt
  have hrange' := axis.low.le_toInt
  have hn : (Int64.ofInt (axis.low.toInt + digit)).toInt = axis.low.toInt + digit :=
    Int64.toInt_ofInt_of_le (by omega) (by omega)
  have hin : axis.low ≤ Int64.ofInt (axis.low.toInt + digit) ∧
      Int64.ofInt (axis.low.toInt + digit) < axis.high := by
    rw [Int64.le_iff_toInt_le, Int64.lt_iff_toInt_lt, hn]
    omega
  refine ⟨_, hin, step_eq_some_iff.2 ⟨_, rfl, hin.1, hin.2, ?_⟩⟩
  rw [hn, hwidth, Int.toNat_natCast]
  omega

/-- Every address in the block that a prefix leads to is reached by a tuple inside the bounds. -/
theorem exists_stepAll {spans : List Nat} {last : Nat} (hspans : axes.mapM Axis.span? = some spans)
    (hpos : ∀ span ∈ spans, 0 < span) (hlow : spans.foldl (· * ·) address ≤ last)
    (hhigh : last < spans.foldl (· * ·) (address + 1)) :
    ∃ ns, Inside axes ns ∧ stepAll address ((ns.map Value.long).zip axes) = some last := by
  induction axes generalizing address spans with
  | nil =>
    obtain rfl := Option.some.inj hspans
    obtain rfl : address = last := Nat.le_antisymm hlow (Nat.le_of_lt_succ hhigh)
    exact ⟨[], .nil, rfl⟩
  | cons axis axes ih =>
    simp only [List.mapM_cons, Option.bind_eq_bind, Option.bind_eq_some_iff, Option.pure_def,
      Option.some.injEq] at hspans
    obtain ⟨span, hspan, spans, hspans, rfl⟩ := hspans
    obtain ⟨-, hrest⟩ := List.forall_mem_cons.1 hpos
    -- The axes that follow divide the addresses into blocks of one size.
    rw [List.foldl_cons, foldl_mul_eq] at hlow hhigh
    have hblock : 0 < spans.foldl (· * ·) 1 := Nat.lt_of_lt_of_le Nat.one_pos (le_foldl hrest)
    have hdiv := Nat.div_add_mod last (spans.foldl (· * ·) 1)
    have hmod := Nat.mod_lt last hblock
    have hnext : address * span ≤ last / spans.foldl (· * ·) 1 :=
      (Nat.le_div_iff_mul_le hblock).2 hlow
    have hnext' : last / spans.foldl (· * ·) 1 < (address + 1) * span :=
      (Nat.div_lt_iff_lt_mul hblock).2 hhigh
    have hfrom : spans.foldl (· * ·) (last / spans.foldl (· * ·) 1) ≤ last := by
      rw [foldl_mul_eq, Nat.mul_comm]
      omega
    have hupto : last < spans.foldl (· * ·) (last / spans.foldl (· * ·) 1 + 1) := by
      rw [foldl_mul_eq, Nat.add_mul, Nat.one_mul, Nat.mul_comm]
      omega
    obtain ⟨n, hn, hstep⟩ := exists_step hspan hnext hnext'
    obtain ⟨ns, hns, hall⟩ := ih hspans hrest hfrom hupto
    refine ⟨n :: ns, .cons hn hns, ?_⟩
    rw [List.map_cons, List.zip_cons_cons, stepAll, hstep]
    exact hall

/-! ## Grids as a whole -/

theorem isSome_addressOf_iff (hc : g.capacity ≠ 0) (hlength : a.length = g.axes.length) :
    (g.addressOf a).isSome ↔ List.Forall₂ (fun v axis => axis.Holds v) a g.axes := by
  rw [addressOf, if_neg hc, isSome_stepAll_iff, List.forall₂_iff_zip]
  exact ⟨fun h => ⟨hlength, fun hm => h _ hm⟩, fun h pair hm => h.2 hm⟩

theorem exists_addressOf (hc : g.capacity ≠ 0) {n : Nat} (hn : n < g.capacity) :
    ∃ ns, Inside g.axes ns ∧ ∀ key : Key, key.map Value.integral? = ns.map some →
      g.addressOf key = some n := by
  obtain ⟨spans, hspans, hpos, hcapacity, -⟩ := exists_spans_of_capacity hc
  have hlow : spans.foldl (· * ·) 0 ≤ n := by
    rw [foldl_mul_eq, Nat.zero_mul]
    exact Nat.zero_le n
  obtain ⟨ns, hns, hall⟩ := exists_stepAll hspans hpos hlow (hcapacity ▸ hn)
  refine ⟨ns, hns, fun key hkey => ?_⟩
  have hsame : key.map Value.integral? = (ns.map Value.long).map Value.integral? := by
    rw [hkey, List.map_map]
    rfl
  rw [addressOf, if_neg hc, stepAll_congr hsame, hall]

theorem eq_of_compare (hv : v.integral?.isSome) (h : v.compare w = .eq) : v = w := by
  obtain ⟨htype, hunset, hnumber, -⟩ := Value.compare_eq_eq_iff.1 h
  cases v <;> cases w <;> simp_all [Value.type, Value.isUnset, Value.number, Value.integral?]
  case int.int x y => exact Int32.toInt_inj.1 hnumber
  case long.long x y | date.date x y => exact Int64.toInt_inj.1 hnumber

theorem keys_eq_of_compare (ha : ∀ v ∈ a, v.integral?.isSome) (h : a.compare b = .eq) : a = b := by
  have hab := Key.compare_eq_eq_iff.1 h
  clear h
  induction hab with
  | nil => rfl
  | cons hvw _ ih =>
    rw [List.forall_mem_cons] at ha
    rw [eq_of_compare ha.1 hvw, ih ha.2]

/-- The addresses of a grid embed the keys inside its bounds in the numbers below its capacity. The
address is computed without overflow and there is one for every key inside the bounds and for no
other; it is a slot; addresses are in the order of keys, and keys of one address are one; and every
slot belongs to a tuple inside the bounds. -/
structure Embeds (shape : Shape) (g : AddressGrid) : Prop where
  answers : ∀ e : Entry, e.Conforms shape → ∃ address?, g.address? e = .ok address? ∧
    (address?.isSome ↔ List.Forall₂ (fun v axis => axis.Holds v) (g.projection.keyOf e) g.axes)
  below : ∀ (e : Entry) (n : Nat), e.Conforms shape → g.address? e = .ok (some n) → n < g.capacity
  ordered : ∀ (a b : Entry) (m n : Nat), a.Conforms shape → b.Conforms shape →
    g.address? a = .ok (some m) → g.address? b = .ok (some n) →
    Ord.compare m n = Key.compare (g.projection.keyOf a) (g.projection.keyOf b)
  apart : ∀ (a b : Entry) (n : Nat), a.Conforms shape → b.Conforms shape →
    g.address? a = .ok (some n) → g.address? b = .ok (some n) →
    g.projection.keyOf a = g.projection.keyOf b
  onto : ∀ n < g.capacity, ∃ ns, Inside g.axes ns ∧
    g.addressOf (ns.map .long) = some n ∧ ∀ e : Entry, e.Conforms shape →
      (g.projection.keyOf e).map Value.integral? = ns.map some → g.address? e = .ok (some n)

variable {shape : Shape}

theorem embeds (hin : g.projection.Inside shape) (hwidth : g.axes.length = g.projection.width)
    (hc : g.capacity ≠ 0) : g.Embeds shape := by
  have haddress {e : Entry} (he : e.Conforms shape) :
      g.address? e = .ok (g.addressOf (g.projection.keyOf e)) := address?_eq (hin.fits he)
  have hlength (e : Entry) : (g.projection.keyOf e).length = g.axes.length := by
    rw [Projection.length_keyOf, hwidth]
  have hordered {a b : Entry} {m n : Nat} (ha : a.Conforms shape) (hb : b.Conforms shape)
      (hm : g.address? a = .ok (some m)) (hn : g.address? b = .ok (some n)) :
      Ord.compare m n = Key.compare (g.projection.keyOf a) (g.projection.keyOf b) :=
    compare_addressOf (hlength a) (Projection.types_keyOf ha hb)
      (Except.ok.inj ((haddress ha).symm.trans hm)) (Except.ok.inj ((haddress hb).symm.trans hn))
  refine ⟨?answers, ?below, fun a b m n ha hb hm hn => hordered ha hb hm hn, ?apart, ?onto⟩
  case answers => exact fun e he => ⟨_, haddress he, isSome_addressOf_iff hc (hlength e)⟩
  case below =>
    intro e n he hn
    exact addressOf_lt (Except.ok.inj ((haddress he).symm.trans hn))
  case apart =>
    intro a b n ha hb hm hn
    have hsome : (g.addressOf (g.projection.keyOf a)).isSome := by
      rw [Except.ok.inj ((haddress ha).symm.trans hm)]
      rfl
    have hholds := (isSome_addressOf_iff hc (hlength a)).1 hsome
    refine keys_eq_of_compare (fun v hv => ?_) ((hordered ha hb hm hn).symm.trans
      Std.ReflOrd.compare_self)
    obtain ⟨axis, -, n, hv, -⟩ := Checked.exists_of_mem_right hholds.flip hv
    exact hv ▸ rfl
  case onto =>
    intro n hn
    obtain ⟨ns, hns, hall⟩ := exists_addressOf hc hn
    refine ⟨ns, hns, hall _ (by rw [List.map_map]; rfl), fun e he hkey => ?_⟩
    rw [haddress he, hall _ hkey]

theorem Houses.exists_ascending {came : Handle → Entry → Prop} (hg : g.Houses came)
    (hwidth : g.axes.length = g.projection.width)
    (hconforms : ∀ h e, came h e → e.Conforms shape) : ∃ placed : List (Handle × Entry),
      g.handles = placed.map Prod.fst ∧ (∀ item ∈ placed, came item.1 item.2) ∧
      placed.Pairwise fun x y =>
        Key.compare (g.projection.keyOf x.2) (g.projection.keyOf y.2) = .lt := by
  have : Nonempty Entry := ⟨.blank shape⟩
  choose! entryAt hcame haddress using hg.brought
  refine ⟨g.occupied.map fun slot => (slot.2, entryAt slot), ?_, ?_, ?_⟩
  · rw [handles, List.map_map]
    rfl
  · intro item hitem
    obtain ⟨slot, hslot, rfl⟩ := List.mem_map.1 hitem
    exact hcame slot hslot
  · refine List.pairwise_map.2 (hg.ascending.imp_of_mem fun {p q} hp hq hlt => ?_)
    rw [← compare_addressOf _ (Projection.types_keyOf (hconforms _ _ (hcame p hp))
      (hconforms _ _ (hcame q hq))) (haddress p hp) (haddress q hq)]
    · exact hlt
    · rw [Projection.length_keyOf, hwidth]

/-- After any history of an array index, its handles stand in the order of keys they came with. -/
theorem exists_ascending_of_actions {π : Projection} {actions : List Index.Action}
    (hin : π.Inside shape) (hwidth : axes.length = π.width) (ha : ∀ a ∈ actions, a.Fits shape) :
    ∃ g, (Index.array (empty π axes)).actAll actions = .ok (.array g) ∧
      ∃ placed : List (Handle × Entry), g.handles = placed.map Prod.fst ∧
        (∀ item ∈ placed, Index.Brings actions item.1 item.2) ∧
        placed.Pairwise fun x y => Key.compare (π.keyOf x.2) (π.keyOf y.2) = .lt := by
  obtain ⟨g, hrun, rfl, rfl, hg⟩ := exists_actAll hin ha axes
  exact ⟨g, hrun, hg.exists_ascending hwidth fun _ _ hbrings => hbrings.conforms ha⟩

end AddressGrid

theorem Store.Invariant.pairwise_of_array {s : Store} (hs : s.Invariant) {d : Declared}
    {rest : List Declared} (hd : s.indices = d :: rest) (hkind : d.descriptor.kind = .array) :
    s.entries.Pairwise fun a b => Key.compare ((d.descriptor.keyFields s.shape).map a.field)
      ((d.descriptor.keyFields s.shape).map b.field) = .lt := by
  have hm : d ∈ s.indices := hd ▸ List.mem_cons_self
  have hstands := hs.stands d hm
  have hf := (hs.sound d hm).filed
  have hreads := hstands.reads
  obtain ⟨g, hg⟩ := Index.exists_array_of_kind (hstands.describes.1.trans hkind)
  have hhandles : s.handles = g.handles := by rw [handles, hd]; exact congrArg Index.handles hg
  have hkey (e : Entry) : g.projection.keyOf e = (d.descriptor.keyFields s.shape).map e.field := by
    rw [← hstands.keyOf_eq, hg]
    rfl
  rw [hg] at hf hreads
  have hlength (e : Entry) : (g.projection.keyOf e).length = g.axes.length := by
    rw [Projection.length_keyOf]
    exact hreads.form.symm
  refine (pairwise_entries hf hhandles).imp_of_mem fun {a b} ha hb hab => ?_
  obtain ⟨m, n, hm, hn, hlt⟩ := hab
  have htypes := Projection.types_keyOf (π := g.projection)
    (hs.conforms_of_mem (hs.mem_entries_iff.1 ha)) (hs.conforms_of_mem (hs.mem_entries_iff.1 hb))
  rw [← hkey, ← hkey, ← AddressGrid.compare_addressOf (hlength a) htypes hm hn]
  exact Nat.compare_eq_lt.2 hlt

/-- A grid has as many slots as the descriptor counts, also if they are counted in words; its
addresses embed the keys inside its bounds; and it is walked in key order, by itself whatever
happened to it, and as the primary index of a store. -/
theorem AddressGrid.addresses_embed (π : Projection) (axes : List Axis) :
    ((empty π axes).capacity = (Axis.slotCount? axes).getD 0 ∧
      (empty π axes).capacity = (Axis.wordCount? axes).getD 0) ∧
    (∀ shape, π.Inside shape → axes.length = π.width → (empty π axes).capacity ≠ 0 →
      (empty π axes).Embeds shape) ∧
    (∀ shape (actions : List Index.Action), π.Inside shape → axes.length = π.width →
      (∀ a ∈ actions, a.Fits shape) →
      ∃ g, (Index.array (empty π axes)).actAll actions = .ok (.array g) ∧
        ∃ placed : List (Handle × Entry), g.handles = placed.map Prod.fst ∧
          (∀ item ∈ placed, Index.Brings actions item.1 item.2) ∧
          placed.Pairwise fun x y => Key.compare (π.keyOf x.2) (π.keyOf y.2) = .lt) ∧
    (∀ s : Store, s.Reachable → ∀ d rest, s.indices = d :: rest → d.descriptor.kind = .array →
      s.entries.Pairwise fun a b => Key.compare ((d.descriptor.keyFields s.shape).map a.field)
        ((d.descriptor.keyFields s.shape).map b.field) = .lt) := by
  refine ⟨capacity_empty π axes, ?grids, ?histories, ?stores⟩
  case grids => exact fun _ hin hwidth hc => embeds hin hwidth hc
  case histories => exact fun _ _ hin hwidth ha => exists_ascending_of_actions hin hwidth ha
  case stores => exact fun s hs d rest hd hkind => hs.invariant.pairwise_of_array hd hkind

namespace AddressGrid

def sampleAxes : List Axis := [⟨1, -1, 2⟩, ⟨2, 0, 4⟩]

def samplePairs : Projection := ⟨⟨[.int, .int]⟩, [0, 1], .equality⟩

/-- The last key first, its neighbour, a key taken and one out of bounds, and one that goes again. -/
def sampleFill : List Index.Action :=
  [.change (fun _ => none) (.add ⟨0, 0⟩ (Store.samplePair 1 3)),
    .change (fun _ => none) (.add ⟨1, 0⟩ (Store.samplePair 1 2)),
    .change (fun _ => none) (.add ⟨2, 0⟩ (Store.samplePair 1 2)),
    .change (fun _ => none) (.add ⟨3, 0⟩ (Store.samplePair 2 0)),
    .change (fun _ => none) (.add ⟨4, 0⟩ (Store.samplePair 0 0)),
    .change (fun _ => none) (.remove ⟨4, 0⟩ (Store.samplePair 0 0)),
    .change (fun _ => none) (.add ⟨5, 0⟩ (Store.samplePair (-1) 0))]

theorem sampleFill_fits : ∀ a ∈ sampleFill, a.Fits ⟨[.int, .int]⟩ := by
  simp only [sampleFill, List.forall_mem_cons, List.not_mem_nil, false_imp_iff, implies_true,
    and_true]
  refine ⟨?_, ?_, ?_, ?_, ?_, ?_, ?_⟩ <;> exact ⟨(by rintro _ _ ⟨⟩), (by decide)⟩

/-- A grid of twelve slots, bounds as far apart as they can be after an empty span, and a store. -/
theorem addresses_embed_of_pairs :
    ((empty samplePairs sampleAxes).capacity = 12 ∧
      (empty samplePairs [⟨1, 5, 5⟩, ⟨2, Int64.minValue, Int64.maxValue⟩]).capacity = 0) ∧
    (empty samplePairs sampleAxes).Embeds ⟨[.int, .int]⟩ ∧
    (empty samplePairs sampleAxes).address? (Store.samplePair 1 3) = .ok (some 11) ∧
    (∃ (g : AddressGrid) (placed : List (Handle × Entry)),
      (Index.array (empty samplePairs sampleAxes)).actAll sampleFill = .ok (.array g) ∧
      g.handles = [⟨5, 0⟩, ⟨1, 0⟩, ⟨0, 0⟩] ∧ g.handles = placed.map Prod.fst ∧
      (placed.Pairwise fun x y =>
        Key.compare (samplePairs.keyOf x.2) (samplePairs.keyOf y.2) = .lt)) ∧
    ∃ s d, Store.Reachable s ∧ s.indices = [d] ∧ s.size = 2 ∧
      s.entries.Pairwise fun a b => Key.compare ((d.descriptor.keyFields s.shape).map a.field)
        ((d.descriptor.keyFields s.shape).map b.field) = .lt := by
  obtain ⟨⟨hcount, -⟩, hgrids, hhistories, hstores⟩ := addresses_embed samplePairs sampleAxes
  obtain ⟨⟨-, hwords⟩, -⟩ :=
    addresses_embed samplePairs [⟨1, 5, 5⟩, ⟨2, Int64.minValue, Int64.maxValue⟩]
  have hin : samplePairs.Inside ⟨[.int, .int]⟩ := (Projection.onPositions_spec
    (rfl : Projection.onPositions ⟨[.int, .int]⟩ [1, 2] .equality = .ok samplePairs)).1
  have hcapacity : (empty samplePairs sampleAxes).capacity = 12 := hcount.trans (by decide)
  refine ⟨⟨hcapacity, hwords.trans (by decide)⟩,
    hgrids _ hin rfl (by rw [hcapacity]; decide), by decide, ?_, ?_⟩
  · obtain ⟨g, hrun, placed, hplaced, -, hascends⟩ := hhistories _ sampleFill hin rfl sampleFill_fits
    refine ⟨g, placed, hrun, ?_, hplaced, hascends⟩
    obtain rfl := Index.array.inj (Except.ok.inj hrun)
    decide
  · obtain ⟨s, hs⟩ : ∃ s, Store.create ⟨[.int, .int]⟩ [.ofForm (.array sampleAxes)] = .ok s :=
      ⟨_, rfl⟩
    obtain ⟨t, ht⟩ : ∃ t, Store.run ([Store.samplePair 1 2, Store.samplePair 0 3].map .insert) s =
        .ok t := by
      obtain rfl := Except.ok.inj hs
      exact ⟨_, rfl⟩
    have hr : t.Reachable := .filled hs (by decide) (by decide) ht
    obtain ⟨d, hd, hkind, hsize⟩ : ∃ d, t.indices = [d] ∧ d.descriptor.kind = .array ∧
        t.size = 2 := by
      obtain rfl := Except.ok.inj hs
      obtain rfl := Except.ok.inj ht
      exact ⟨_, rfl, rfl, rfl⟩
    exact ⟨t, d, hr, hd, hsize, hstores t hr d [] hd hkind⟩

end AddressGrid
end IndexedStore
