import IndexedStore.Proofs.IndexHistories
import IndexedStore.Proofs.Mixing
import IndexedStore.Proofs.Runs

/-!
# What key hashes tell apart

A key is hashed block by block, one block a field, so two keys whose blocks differ at a single field
have different hashes. The block of an integer is its bits, so in a hash index on one integer field
no chain has handles of two integers.
-/
namespace IndexedStore

namespace Projection

variable {shape : Shape} {positions : List Nat} {comparison : Comparison} {π : Projection}

theorem positions_spec (h : onPositions shape positions comparison = .ok π) :
    π.positions = (if positions.isEmpty then shape.positions else positions) ∧
      π.positions.Nodup := by
  rw [onPositions] at h
  obtain ⟨⟨⟩, hcheck, hπ⟩ := Checked.bind_eq_ok.1 h
  obtain rfl := Except.ok.inj hπ
  obtain ⟨hin, hnodup, -⟩ := checkPositions_eq_ok_iff.1 hcheck
  have hpositions (listed : List Nat) (hpos : ∀ p ∈ listed, 0 < p) :
      (listed.map (· - 1)).map (· + 1) = listed := by
    rw [List.map_map]
    exact (List.map_congr_left fun p hp => Nat.sub_add_cancel (hpos p hp)).trans (List.map_id _)
  dsimp only [Projection.positions]
  rw [hpositions _ fun p hp => (hin p hp).1]
  exact ⟨rfl, hnodup⟩

end Projection

namespace Entry

variable {shape : Shape} {positions : List Nat} {a b e : Entry} {p : Nat}

/-- Two entries whose values at some positions hash alike, but for one position. -/
def DifferInField (positions : List Nat) (a b : Entry) : Prop :=
  ∃ p ∈ positions, (a.field p).hashBlock ≠ (b.field p).hashBlock ∧
    ∀ q ∈ positions, q ≠ p → (a.field q).hashBlock = (b.field q).hashBlock

instance : Decidable (DifferInField positions a b) :=
  inferInstanceAs (Decidable (∃ p ∈ positions, _ ∧ ∀ q ∈ positions, _))

theorem Conforms.int_or_unset (he : e.Conforms shape) (hp : shape.field? p = some .int) :
    (∃ n, e.field p = .int n) ∨ e.field p = .unset .int := by
  have htype := type_field he hp
  cases hfield : e.field p with
  | int n => exact .inl ⟨n, rfl⟩
  | unset type =>
    rw [hfield, Value.type] at htype
    exact .inr (congrArg Value.unset htype)
  | long | double | str | date | bool =>
    rw [hfield] at htype
    cases htype

end Entry

namespace Projection

section Fields

variable {shape : Shape} {π : Projection} {positions : List Nat} {a b : Entry} {p : Nat}

theorem hash_ne_of_fields (hkey : ∀ e, π.keyOf e = positions.map e.field) (hnodup : positions.Nodup)
    (h : a.DifferInField positions b) : (π.keyOf a).hash ≠ (π.keyOf b).hash := by
  obtain ⟨p, hp, hne, hsame⟩ := h
  obtain ⟨before, after, rfl⟩ := List.append_of_mem hp
  rw [List.nodup_middle, List.nodup_cons, List.mem_append, not_or] at hnodup
  have hblocks {part : List Nat} (hpart : part ⊆ before ++ p :: after) (hout : p ∉ part) :
      (part.map a.field).map Value.hashBlock = (part.map b.field).map Value.hashBlock := by
    rw [List.map_map, List.map_map]
    exact List.map_congr_left fun q hq => hsame q (hpart hq) fun heq => hout (heq ▸ hq)
  have hbefore := hblocks (by simp) hnodup.1.1
  have hafter := hblocks (by simp) hnodup.1.2
  rw [Key.hash, Key.hash, length_keyOf, length_keyOf, hkey, hkey]
  simp only [List.map_append, List.map_cons, hbefore, hafter]
  exact Mixing.digest_ne hne _ _ _

variable (hkey : ∀ e, π.keyOf e = [p].map e.field)
include hkey

/-- Entries of two integers have different hashes under a key of this one field. -/
theorem int_eq_of_hash_eq {m n : Int32} (ha : a.field p = .int m) (hb : b.field p = .int n)
    (h : (π.keyOf a).hash = (π.keyOf b).hash) : m = n := by
  by_contra hne
  have hblock : (a.field p).hashBlock ≠ (b.field p).hashBlock := by
    rw [ha, hb]
    exact fun heq => hne (Int32.toBitVec_inj.1 (congrArg UInt32.toBitVec heq))
  exact hash_ne_of_fields hkey (List.nodup_singleton p) ⟨p, by simp, hblock, by simp⟩ h

/-- A hash belongs to one integer, and possibly to the sentinel. -/
theorem exists_int_of_hash (hp : shape.field? p = some .int) (hash : UInt32) :
    ∃ n, ∀ e : Entry, e.Conforms shape → (π.keyOf e).hash = hash →
      e.field p = .int n ∨ e.field p = .unset .int := by
  by_cases hset : ∃ (e : Entry) (n : Int32), (π.keyOf e).hash = hash ∧ e.field p = .int n
  · obtain ⟨e, n, rfl, hn⟩ := hset
    refine ⟨n, fun x hx hhash => (hx.int_or_unset hp).imp_left ?_⟩
    rintro ⟨m, hm⟩
    rw [hm, int_eq_of_hash_eq hkey hm hn hhash]
  · refine ⟨0, fun x hx hhash => (hx.int_or_unset hp).imp_left ?_⟩
    rintro ⟨m, hm⟩
    exact absurd ⟨x, m, hhash, hm⟩ hset

end Fields

theorem hash_ne {shape : Shape} {positions : List Nat} {comparison : Comparison} {π : Projection}
    (hπ : onPositions shape positions comparison = .ok π) {a b : Entry} (ha : a.Conforms shape)
    (hb : b.Conforms shape) (h : a.DifferInField π.positions b) :
    ∃ x y, π.hash a = .ok x ∧ π.hash b = .ok y ∧ x ≠ y := by
  have hin := (onPositions_spec hπ).1
  exact ⟨_, _, hash_eq (hin.fits ha), hash_eq (hin.fits hb),
    hash_ne_of_fields π.keyOf_eq_map_field (positions_spec hπ).2 h⟩

end Projection

/-! ## Chains of integers -/

/-- Whatever happened to a hash index on one integer field, a chain has handles of one integer, and
possibly of the sentinel. -/
theorem HashChains.chains_of_int {shape : Shape} {p : Nat} {comparison : Comparison}
    {π : Projection} {actions : List Index.Action} (hp : shape.field? p = some .int)
    (hπ : Projection.onPositions shape [p] comparison = .ok π) (unique : Bool)
    (ha : ∀ a ∈ actions, a.Fits shape) :
    ∃ c, (Index.hash (empty π unique)).actAll actions = .ok (.hash c) ∧
      ∀ row ∈ c.chains, ∃ n, ∀ h ∈ row.2, ∃ e, Index.Brings actions h e ∧
        π.hash e = .ok row.1 ∧ (e.field p = .int n ∨ e.field p = .unset .int) := by
  have hin := (Projection.onPositions_spec hπ).1
  have hkey (e : Entry) : π.keyOf e = [p].map e.field := by
    rw [Projection.keyOf_eq_map_field, (Projection.positions_spec hπ).1]
    rfl
  obtain ⟨c, hrun, rfl, hc⟩ := exists_actAll hin ha unique
  refine ⟨c, hrun, fun row hrow => ?_⟩
  obtain ⟨n, hn⟩ := Projection.exists_int_of_hash hkey hp row.1
  refine ⟨n, fun h hh => ?_⟩
  obtain ⟨e, hbrings, hhash⟩ := hc.brought row hrow h hh
  have he := hbrings.conforms ha
  exact ⟨e, hbrings, by rw [Projection.hash_eq (hin.fits he), hhash], hn e he hhash⟩

theorem Store.Invariant.int_of_chain {s : Store} (hs : s.Invariant) {d : Declared}
    (hd : d ∈ s.indices) {c : HashChains} (hc : d.index = .hash c) {p : Nat}
    (hfields : d.descriptor.keyFields s.shape = [p]) (hp : s.shape.field? p = some .int) :
    ∀ row ∈ c.chains, ∃ n, ∀ h ∈ row.2, ∃ e, s.entry? h = some e ∧
      (e.field p = .int n ∨ e.field p = .unset .int) := by
  have hkey (e : Entry) : c.projection.keyOf e = [p].map e.field := by
    rw [← hfields, ← (hs.stands d hd).keyOf_eq, hc]
    rfl
  have hf : (Index.hash c).Filed s.source := hc ▸ (hs.sound d hd).filed
  intro row hrow
  obtain ⟨n, hn⟩ := Projection.exists_int_of_hash hkey hp row.1
  refine ⟨n, fun h hh => ?_⟩
  have hchain : h ∈ c.chain row.1 := by
    rwa [HashChains.chain_eq_listAt,
      OrderedTable.listAt_of_mem hf.ascending hrow Std.ReflCmp.compare_self]
  obtain ⟨e, he, -, hhash⟩ := hf.placed row.1 h hchain
  exact ⟨e, he, hn e (hs.conforms he) hhash⟩

/-- A difference at one place always shows. Keys that hash alike in all fields but one have
different hashes, so a hash index on one integer field keeps integers apart, by itself and in a
store; and byte strings that differ within one block have different hashes. -/
theorem single_differences_show :
    (∀ (shape : Shape) (positions : List Nat) (comparison : Comparison) (π : Projection),
      Projection.onPositions shape positions comparison = .ok π → ∀ a b : Entry,
        a.Conforms shape → b.Conforms shape → a.DifferInField π.positions b →
        ∃ x y, π.hash a = .ok x ∧ π.hash b = .ok y ∧ x ≠ y) ∧
    (∀ (shape : Shape) (p : Nat) (comparison : Comparison) (π : Projection) (unique : Bool)
      (actions : List Index.Action), shape.field? p = some .int →
      Projection.onPositions shape [p] comparison = .ok π → (∀ a ∈ actions, a.Fits shape) →
      ∃ c, (Index.hash (.empty π unique)).actAll actions = .ok (.hash c) ∧
        ∀ row ∈ c.chains, ∃ n, ∀ h ∈ row.2, ∃ e, Index.Brings actions h e ∧
          π.hash e = .ok row.1 ∧ (e.field p = .int n ∨ e.field p = .unset .int)) ∧
    (∀ s : Store, s.Reachable → ∀ d ∈ s.indices, ∀ (c : HashChains) (p : Nat),
      d.index = .hash c → d.descriptor.keyFields s.shape = [p] → s.shape.field? p = some .int →
      ∀ row ∈ c.chains, ∃ n, ∀ h ∈ row.2, ∃ e, s.entry? h = some e ∧
        (e.field p = .int n ∨ e.field p = .unset .int)) ∧
    (∀ as bs : List UInt8, Mixing.DifferInBlock as bs → Mixing.bytes as ≠ Mixing.bytes bs) := by
  refine ⟨?fields, ?chains, ?stores, ?bytes⟩
  case fields => exact fun _ _ _ _ hπ a b ha hb => Projection.hash_ne hπ ha hb
  case chains => exact fun _ _ _ _ unique _ hp hπ ha => HashChains.chains_of_int hp hπ unique ha
  case stores => exact fun s hs d hd c p hc hfields hp => hs.invariant.int_of_chain hd hc hfields hp
  case bytes => exact fun as bs h => h.bytes_ne

/-- After a clearance, the sentinel and the zero whose block it has, and another integer. -/
def sampleChains : List Index.Action :=
  [.change (fun _ => none) (.add ⟨9, 0⟩ (Tandem.sampleEntry (.int 7))), .clear,
    .change (fun _ => none) (.add ⟨0, 0⟩ (Tandem.sampleEntry (.unset .int))),
    .change (fun _ => none) (.add ⟨1, 0⟩ (Tandem.sampleEntry (.int 0))),
    .change (fun _ => none) (.add ⟨2, 0⟩ (Tandem.sampleEntry (.int 7)))]

theorem sampleChains_fit : ∀ a ∈ sampleChains, a.Fits ⟨[.int]⟩ := by
  simp only [sampleChains, List.forall_mem_cons, List.not_mem_nil, false_imp_iff, implies_true,
    and_true]
  refine ⟨?_, trivial, ?_, ?_, ?_⟩ <;> exact ⟨(by rintro _ _ ⟨⟩), (by decide)⟩

theorem single_differences_show_of_samples :
    (∃ π x y, Projection.onPositions ⟨[.int, .int]⟩ [2, 1] .ordering = .ok π ∧
      π.hash (Store.samplePair 1 2) = .ok x ∧ π.hash (Store.samplePair 1 3) = .ok y ∧ x ≠ y) ∧
    (∃ π c, Projection.onPositions ⟨[.int]⟩ [1] .equality = .ok π ∧
      (Index.hash (.empty π true)).actAll sampleChains = .ok (.hash c) ∧
      c.chains.map Prod.snd = [[⟨2, 0⟩], [⟨0, 0⟩, ⟨1, 0⟩]] ∧
      ∀ row ∈ c.chains, ∃ n, ∀ h ∈ row.2, ∃ e, Index.Brings sampleChains h e ∧
        π.hash e = .ok row.1 ∧ (e.field 1 = .int n ∨ e.field 1 = .unset .int)) ∧
    (∃ s d c, Store.Reachable s ∧ s.indices = [d] ∧ d.index = .hash c ∧ c.chains.length = 2 ∧
      ∀ row ∈ c.chains, ∃ n, ∀ h ∈ row.2, ∃ e, s.entry? h = some e ∧
        (e.field 1 = .int n ∨ e.field 1 = .unset .int)) ∧
    Mixing.bytes [97, 98, 99, 100, 101] ≠ Mixing.bytes [97, 98, 99, 100, 102] := by
  obtain ⟨hfields, hchains, hstores, hbytes⟩ := single_differences_show
  refine ⟨?_, ?_, ?_, ?_⟩
  · obtain ⟨x, y, hxy⟩ := hfields ⟨[.int, .int]⟩ [2, 1] .ordering _ rfl (Store.samplePair 1 2)
      (Store.samplePair 1 3) (by decide) (by decide) (by decide)
    exact ⟨_, x, y, rfl, hxy⟩
  · obtain ⟨c, hrun, hrows⟩ := hchains ⟨[.int]⟩ 1 .equality _ true sampleChains rfl rfl sampleChains_fit
    refine ⟨_, c, rfl, hrun, ?_, hrows⟩
    obtain rfl := Index.hash.inj (Except.ok.inj hrun)
    decide
  · obtain ⟨s, hs⟩ : ∃ s, Store.create ⟨[.int, .int]⟩ [.ofForm (.hash [1] false)] = .ok s :=
      ⟨_, rfl⟩
    obtain ⟨t, ht⟩ : ∃ t, Store.run
        ([Store.samplePair 1 30, Store.samplePair 1 40, Store.samplePair 2 20].map .insert) s =
          .ok t := by
      obtain rfl := Except.ok.inj hs
      exact ⟨_, rfl⟩
    have hr : t.Reachable := .filled hs (by decide) (by decide) ht
    obtain ⟨d, c, hd, hc, hkey, htype, hlength⟩ : ∃ d c, t.indices = [d] ∧ d.index = .hash c ∧
        d.descriptor.keyFields t.shape = [1] ∧ t.shape.field? 1 = some .int ∧
        c.chains.length = 2 := by
      obtain rfl := Except.ok.inj hs
      obtain rfl := Except.ok.inj ht
      exact ⟨_, _, rfl, rfl, rfl, rfl, rfl⟩
    exact ⟨t, d, c, hr, hd, hc, hlength, hstores t hr d (by simp [hd]) c 1 hc hkey htype⟩
  · refine hbytes _ _ ⟨rfl, by decide, 1, fun j hj => ?_⟩
    match j with
    | 0 | 1 | 2 | 3 => rfl
    | 4 => exact absurd rfl hj
    | _ + 5 => rfl

end IndexedStore
