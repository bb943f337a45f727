import IndexedStore.Proofs.KindAgreement

/-!
# Histories of single indices

An index by itself can be changed and cleared in any order, under any handles: a handle can be added
while it is held, and removed under an entry it was never added with. Whatever happened, each chain
of a hash index and each slot of an array index has only handles that once came with an entry
belonging there.
-/
namespace IndexedStore

namespace OrderedTable

variable {κ ν : Type} {compare : κ → κ → Ordering} [Std.TransCmp compare]
  [Std.LawfulEqCmp compare] {key : κ} {f : Option ν → Option ν} {rows : List (κ × ν)}
  {row : κ × ν}

theorem find?_eq_some_iff (h : Ascending compare rows) :
    find? compare row.1 rows = some row.2 ↔ row ∈ rows := by
  constructor
  · intro hfind
    obtain ⟨k, hk, level⟩ := exists_of_find? h hfind
    rwa [← Std.LawfulEqCmp.eq_of_compare level] at hk
  · exact fun hr => find?_of_mem h hr Std.ReflCmp.compare_self

theorem mem_or_of_mem_alter (h : Ascending compare rows) (hr : row ∈ alter compare key f rows) :
    row ∈ rows ∨ row.1 = key ∧ f (find? compare key rows) = some row.2 := by
  have hfind := (find?_eq_some_iff (ascending_alter h)).2 hr
  rw [find?_alter h] at hfind
  split at hfind
  next level => exact .inr ⟨Std.LawfulEqCmp.eq_of_compare level, hfind⟩
  next => exact .inl ((find?_eq_some_iff h).1 hfind)

end OrderedTable

namespace Index

/-- What can be done to an index: a change, which can ask a source, or a clearance. -/
inductive Action where
  | change (source : Source) (c : Change)
  | clear

/-- The index after an action. An addition that is refused leaves it as it is, and so does a removal
that finds nothing. -/
def act (i : Index) : Action → Checked Index
  | .change source c => i.change source c
  | .clear => return i.clear

def actAll (i : Index) (actions : List Action) : Checked Index := actions.foldlM act i

def Action.Fits (shape : Shape) : Action → Prop
  | .change source (.add _ e) | .change source (.remove _ e) =>
    source.Conforms shape ∧ e.Conforms shape
  | .clear => True

/-- A handle is added with an entry, accepted or refused, somewhere in a history. -/
def Brings (actions : List Action) (h : Handle) (e : Entry) : Prop :=
  ∃ source, .change source (.add h e) ∈ actions

theorem Brings.conforms {actions : List Action} {shape : Shape} {h : Handle} {e : Entry}
    (hbrings : Brings actions h e) (ha : ∀ a ∈ actions, a.Fits shape) : e.Conforms shape := by
  obtain ⟨_, hm⟩ := hbrings
  exact (ha _ hm).2

theorem actAll_of_act {P : Index → Prop} {i : Index} {actions : List Action} (hi : P i)
    (hact : ∀ i, P i → ∀ a ∈ actions, ∃ j, i.act a = .ok j ∧ P j) :
    ∃ j, i.actAll actions = .ok j ∧ P j := by
  induction actions generalizing i with
  | nil => exact ⟨i, rfl, hi⟩
  | cons a rest ih =>
    obtain ⟨j, hj, hpj⟩ := hact i hi a List.mem_cons_self
    obtain ⟨k, hk, hpk⟩ := ih hpj fun i hi a ha => hact i hi a (List.mem_cons_of_mem _ ha)
    exact ⟨k, by rw [actAll, List.foldlM_cons, hj]; exact hk, hpk⟩

end Index

variable {shape : Shape} {came : Handle → Entry → Prop} {source : Source} {h : Handle} {e : Entry}

namespace HashChains

/-- Chains hold only handles that came with an entry of the hash of the chain. -/
structure Houses (came : Handle → Entry → Prop) (c : HashChains) : Prop where
  ascending : OrderedTable.Ascending Ord.compare c.chains
  brought : ∀ row ∈ c.chains, ∀ h ∈ row.2, ∃ e, came h e ∧ (c.projection.keyOf e).hash = row.1

namespace Houses

variable {c : HashChains} (hc : c.Houses came)
include hc

theorem exists_of_mem_chain {hash : UInt32} (hh : h ∈ c.chain hash) :
    ∃ e, came h e ∧ (c.projection.keyOf e).hash = hash := by
  obtain ⟨row, hr, level, hm⟩ := OrderedTable.exists_of_mem_listAt hc.ascending hh
  rw [Std.LawfulEqCmp.eq_of_compare level]
  exact hc.brought row hr h hm

theorem push (hcame : came h e) : (c.push (c.projection.keyOf e).hash h).Houses came where
  ascending := OrderedTable.ascending_alter hc.ascending
  brought := by
    intro row hr k hk
    rcases OrderedTable.mem_or_of_mem_alter hc.ascending hr with hr | ⟨hhash, hitems⟩
    · exact hc.brought row hr k hk
    · rw [← Option.some.inj hitems, List.mem_append, List.mem_singleton] at hk
      rw [hhash]
      rcases hk with hk | rfl
      · exact hc.exists_of_mem_chain hk
      · exact ⟨e, hcame, rfl⟩

theorem pull (hash : UInt32) (h : Handle) : (c.pull hash h).Houses came where
  ascending := OrderedTable.ascending_alter hc.ascending
  brought := by
    intro row hr k hk
    rcases OrderedTable.mem_putList hc.ascending hr with hr | ⟨level, hitems, -⟩
    · exact hc.brought row hr k hk
    · rw [hitems] at hk
      rw [← Std.LawfulEqCmp.eq_of_compare level]
      exact hc.exists_of_mem_chain (List.mem_of_mem_erase hk)

end Houses

theorem clear_houses (c : HashChains) : c.clear.Houses came where
  ascending := List.Pairwise.nil
  brought := by simp [clear]

/-- An addition never faults, whatever handles the chains hold. -/
theorem exists_add {c : HashChains} (hfit : c.projection.Fits e)
    (hs : ∀ k x, source k = some x → c.projection.Fits x) : ∃ answer, c.add source h e = .ok answer := by
  rw [add, Projection.hash_eq hfit, Checked.ok_bind]
  split
  · dsimp only
    rw [Checked.findM?_eq_find? fun k _ => Projection.clashes_eq hfit (hs k), Checked.ok_bind]
    split <;> exact ⟨_, rfl⟩
  · exact ⟨_, rfl⟩

theorem Houses.act {c : HashChains} (hc : c.Houses came) (hin : c.projection.Inside shape)
    {a : Index.Action} (ha : a.Fits shape)
    (hcame : ∀ source h e, a = .change source (.add h e) → came h e) :
    ∃ c' : HashChains, (Index.hash c).act a = .ok (.hash c') ∧ c'.projection = c.projection ∧
      c'.Houses came := by
  cases a with
  | clear => exact ⟨c.clear, rfl, rfl, c.clear_houses⟩
  | change source change =>
    cases change with
    | add h e =>
      have hfit := hin.fits ha.2
      obtain ⟨answer, hadd⟩ := exists_add (h := h) hfit fun k x hx => hin.fits (ha.1 hx)
      cases answer with
      | error why => exact ⟨c, by rw [Index.act, Index.change, Index.add, hadd]; rfl, rfl, hc⟩
      | ok c' =>
        obtain rfl := add_ok hfit hadd
        exact ⟨c.push (c.projection.keyOf e).hash h,
          by rw [Index.act, Index.change, Index.add, hadd]; rfl, rfl, hc.push (hcame source h e rfl)⟩
    | remove h e =>
      have hremove := remove?_eq (c := c) (h := h) (hin.fits ha.2)
      split at hremove
      next => exact ⟨c.pull (c.projection.keyOf e).hash h,
        by rw [Index.act, Index.change, Index.remove, Index.remove?, hremove]; rfl, rfl, hc.pull _ _⟩
      next => exact ⟨c, by rw [Index.act, Index.change, Index.remove, Index.remove?, hremove]; rfl,
        rfl, hc⟩

end HashChains

namespace AddressGrid

structure Houses (came : Handle → Entry → Prop) (g : AddressGrid) : Prop where
  ascending : OrderedTable.Ascending Ord.compare g.occupied
  brought : ∀ slot ∈ g.occupied, ∃ e, came slot.2 e ∧
    g.addressOf (g.projection.keyOf e) = some slot.1

theorem clear_houses (g : AddressGrid) : g.clear.Houses came where
  ascending := List.Pairwise.nil
  brought := by simp [clear]

namespace Houses

variable {g : AddressGrid} {address : Nat} (hg : g.Houses came)
include hg

theorem occupy (hcame : came h e) (haddress : g.addressOf (g.projection.keyOf e) = some address) :
    (g.occupy address h).Houses came where
  ascending := OrderedTable.ascending_alter hg.ascending
  brought := by
    intro slot hslot
    rcases OrderedTable.mem_or_of_mem_alter hg.ascending hslot with hslot | ⟨hat, hholder⟩
    · exact hg.brought slot hslot
    · exact ⟨e, Option.some.inj hholder ▸ hcame, hat ▸ haddress⟩

theorem vacate (address : Nat) : (g.vacate address).Houses came where
  ascending := OrderedTable.ascending_alter hg.ascending
  brought := by
    intro slot hslot
    rcases OrderedTable.mem_or_of_mem_alter hg.ascending hslot with hslot | ⟨-, hholder⟩
    · exact hg.brought slot hslot
    · cases hholder

theorem act (hin : g.projection.Inside shape) {a : Index.Action} (ha : a.Fits shape)
    (hcame : ∀ source h e, a = .change source (.add h e) → came h e) :
    ∃ g' : AddressGrid, (Index.array g).act a = .ok (.array g') ∧ g'.projection = g.projection ∧
      g'.axes = g.axes ∧ g'.Houses came := by
  cases a with
  | clear => exact ⟨g.clear, rfl, rfl, rfl, g.clear_houses⟩
  | change source change =>
    cases change with
    | add h e =>
      have hadd := add_eq (g := g) (h := h) (hin.fits ha.2)
      rw [Index.act, Index.change, Index.add, hadd]
      cases haddress : g.addressOf (g.projection.keyOf e) with
      | none => exact ⟨g, rfl, rfl, rfl, hg⟩
      | some address =>
        cases hholder : g.holder? address with
        | none => exact ⟨g.occupy address h, by simp only [hholder]; rfl, rfl, rfl,
            hg.occupy (hcame source h e rfl) haddress⟩
        | some holder =>
          by_cases heq : holder = h
          · exact ⟨g, by simp only [hholder, heq, if_true]; rfl, rfl, rfl, hg⟩
          · exact ⟨g, by simp only [hholder, heq, if_false]; rfl, rfl, rfl, hg⟩
    | remove h e =>
      have hremove := remove?_eq (g := g) (h := h) (hin.fits ha.2)
      rw [Index.act, Index.change, Index.remove, Index.remove?, hremove]
      cases haddress : g.addressOf (g.projection.keyOf e) with
      | none => exact ⟨g, rfl, rfl, rfl, hg⟩
      | some address =>
        by_cases hholder : g.holder? address = some h
        · exact ⟨g.vacate address, by simp only [Option.bind_some, hholder, if_true]; rfl, rfl, rfl,
            hg.vacate address⟩
        · exact ⟨g, by simp only [Option.bind_some, hholder, if_false]; rfl, rfl, rfl, hg⟩

end Houses

end AddressGrid

/-! ## Whole histories -/

section Histories

variable {π : Projection} {actions : List Index.Action} (hin : π.Inside shape)
  (ha : ∀ a ∈ actions, a.Fits shape)
include hin ha

/-- After any history from an empty hash index on, a chain has only handles that were added with an
entry of its hash. -/
theorem HashChains.exists_actAll (unique : Bool) : ∃ c : HashChains,
    (Index.hash (empty π unique)).actAll actions = .ok (.hash c) ∧ c.projection = π ∧
      c.Houses (Index.Brings actions) := by
  obtain ⟨_, hrun, c, rfl, hproj, hc⟩ := Index.actAll_of_act
    (P := fun i => ∃ c, i = .hash c ∧ c.projection = π ∧ c.Houses (Index.Brings actions))
    ⟨empty π unique, rfl, rfl, .nil, by simp [empty]⟩ fun i hi a hm => by
      obtain ⟨c, rfl, hproj, hc⟩ := hi
      obtain ⟨c', hact, hproj', hc'⟩ := hc.act (hproj ▸ hin) (ha a hm)
        fun source h e heq => ⟨source, heq ▸ hm⟩
      exact ⟨_, hact, c', rfl, hproj'.trans hproj, hc'⟩
  exact ⟨c, hrun, hproj, hc⟩

theorem AddressGrid.exists_actAll (axes : List Axis) : ∃ g : AddressGrid,
    (Index.array (empty π axes)).actAll actions = .ok (.array g) ∧ g.projection = π ∧
      g.axes = axes ∧ g.Houses (Index.Brings actions) := by
  obtain ⟨_, hrun, g, rfl, hproj, haxes, hg⟩ := Index.actAll_of_act
    (P := fun i => ∃ g, i = .array g ∧ g.projection = π ∧ g.axes = axes ∧
      g.Houses (Index.Brings actions))
    ⟨empty π axes, rfl, rfl, rfl, .nil, by simp [empty]⟩ fun i hi a hm => by
      obtain ⟨g, rfl, hproj, haxes, hg⟩ := hi
      obtain ⟨g', hact, hproj', haxes', hg'⟩ := hg.act (hproj ▸ hin) (ha a hm)
        fun source h e heq => ⟨source, heq ▸ hm⟩
      exact ⟨_, hact, g', rfl, hproj'.trans hproj, haxes'.trans haxes, hg'⟩
  exact ⟨g, hrun, hproj, haxes, hg⟩

end Histories
end IndexedStore
