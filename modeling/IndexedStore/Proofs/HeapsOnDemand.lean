import IndexedStore.Layout
import IndexedStore.Proofs.Extrema
import IndexedStore.Proofs.Handlings

/-!
# Heaps declared and heaps on demand

A layout plan can declare heaps, and a call for a foremost entry adds the heap it needs. Both come to
the same layout. As heaps and the hash indices on their groups are not unique, a store behaves alike
with and without them, so it does not matter when they are added.
-/
namespace IndexedStore

abbrev HeapRequest := Direction × List Nat × Nat

namespace HeapRequest

def form : HeapRequest → IndexForm
  | (order, group, target) => .heap order group target

theorem form_injective : Function.Injective form := by
  rintro ⟨order, group, target⟩ ⟨order', group', target'⟩ h
  obtain ⟨rfl, rfl, rfl⟩ := IndexForm.heap.inj h
  rfl

def Fits (shape : Shape) : HeapRequest → Prop
  | (_, group, target) => Store.HeapFits shape group target

end HeapRequest

namespace LayoutPlan

theorem isUnique_of_mem_heapLayout {layout : List Descriptor} {order : Direction}
    {group : List Nat} {target : Nat} :
    ∀ d ∈ Store.heapLayout layout order group target, d.isUnique = false := by
  rw [Store.heapLayout]
  split <;> simp [Descriptor.isUnique, Descriptor.ofForm, Descriptor.withPartition]

theorem form_of_mem_heapLayout (layout : List Descriptor) (order : Direction) (group : List Nat)
    (target : Nat) : (∃ d ∈ Store.heapLayout layout order group target,
      d.form = .heap order group target) ∧
    ∀ d ∈ Store.heapLayout layout order group target,
      d.form = .hash group false ∨ d.form = .heap order group target := by
  rw [Store.heapLayout]
  split <;> simp [Descriptor.ofForm, Descriptor.withPartition]

/-- Declared heaps come last in a layout; what is added for them is not unique. -/
theorem exists_foldl_addHeap (requests : List HeapRequest) (layout : List Descriptor) :
    ∃ extra, requests.foldl addHeap layout = layout ++ extra ∧
      (∀ d ∈ extra, d.isUnique = false) ∧ ∀ r ∈ requests, ∃ d ∈ extra, d.form = r.form := by
  induction requests generalizing layout with
  | nil => exact ⟨[], by simp, by simp, by simp⟩
  | cons r rest ih =>
    obtain ⟨order, group, target⟩ := r
    obtain ⟨extra, hfold, hloose, hforms⟩ := ih (addHeap layout (order, group, target))
    refine ⟨Store.heapLayout layout order group target ++ extra, ?_, ?_, ?_⟩
    · rw [List.foldl_cons, hfold, addHeap, List.append_assoc]
    · exact List.forall_mem_append.2 ⟨isUnique_of_mem_heapLayout, hloose⟩
    · rw [List.forall_mem_cons]
      constructor
      · obtain ⟨⟨d, hd, hform⟩, _⟩ := form_of_mem_heapLayout layout order group target
        exact ⟨d, List.mem_append_left _ hd, hform⟩
      · intro r hr
        obtain ⟨d, hd, hform⟩ := hforms r hr
        exact ⟨d, List.mem_append_right _ hd, hform⟩

def create (shape : Shape) (plan : LayoutPlan) : Except Error Store := do
  Store.create shape (← plan.descriptors)

end LayoutPlan

namespace Store

variable {s t : Store} {shape : Shape} {probe : Entry} {r : HeapRequest}

/-! ## Creation index by index -/

theorem create_slab {ds : List Descriptor} (hc : create shape ds = .ok s) : s.slab = .empty := by
  rw [create] at hc
  split at hc
  · cases hc
  · obtain ⟨declared, _, hc⟩ := Checked.bind_eq_ok.1 hc
    obtain rfl := Except.ok.inj hc
    rfl

theorem declareAll_append {earlier ds rest : List Descriptor} :
    declareAll shape earlier (ds ++ rest) = (do
      let first ← declareAll shape earlier ds
      return first ++ (← declareAll shape (earlier ++ ds) rest)) := by
  induction ds generalizing earlier with
  | nil =>
    rw [List.append_nil]
    cases hrest : declareAll shape earlier rest <;> simp [declareAll, hrest]
  | cons d ds ih =>
    simp only [List.cons_append, declareAll, ih, List.append_assoc, List.nil_append, bind_assoc,
      pure_bind]

/-- An index added to a fresh store might as well have been declared. -/
theorem create_concat {ds : List Descriptor} {d : Descriptor} {slot : Nat}
    (hc : create shape ds = .ok s) (hadd : s.addIndex d = .ok (.ok (slot, t))) :
    create shape (ds ++ [d]) = .ok t := by
  obtain ⟨_, hshape, hdesc, hempty⟩ := create_spec hc
  have htoList : s.toList = [] := by
    rw [toList, resolve, List.filterMap_eq_nil_iff]
    intro h _
    have hentry : s.entry? h = none := hempty h
    rw [hentry]
    rfl
  have hlength : s.indices.length = ds.length := by rw [← hdesc, descriptors, List.length_map]
  rw [addIndex, nextIndex, htoList, hlength, hdesc, hshape] at hadd
  rw [create] at hc ⊢
  split at hc
  · cases hc
  next hne =>
    obtain ⟨declared, hall, hc⟩ := Checked.bind_eq_ok.1 hc
    obtain rfl := Except.ok.inj hc
    rw [if_neg (by simp), declareAll_append, hall]
    cases hv : d.validate shape ds.length ds with
    | error err =>
      rw [hv] at hadd
      cases hadd
    | ok =>
      rw [hv] at hadd
      cases hb : Index.ofDescriptor d shape with
      | error err =>
        rw [Checked.ok_bind, hb] at hadd
        cases hadd
      | ok index =>
        rw [Checked.ok_bind, hb] at hadd
        obtain ⟨-, rfl⟩ := Prod.mk.inj (Except.ok.inj (Except.ok.inj hadd))
        simp [declareAll, hv, hb]

theorem create_addIndices {ds added : List Descriptor} (hc : create shape ds = .ok s)
    (hadd : addIndices added s = .ok (.ok (), t)) : create shape (ds ++ added) = .ok t := by
  induction added generalizing ds s with
  | nil =>
    obtain ⟨-, rfl⟩ := Prod.mk.inj (Except.ok.inj hadd)
    rwa [List.append_nil]
  | cons d rest ih =>
    obtain ⟨result, hfirst, hadd⟩ := Checked.bind_eq_ok.1 hadd
    cases result with
    | error err => cases hadd
    | ok grown =>
      have hrest := ih (create_concat hc hfirst) hadd
      rwa [List.append_assoc] at hrest

theorem exists_create_heaps {requests : List HeapRequest} {ds : List Descriptor}
    (hc : create shape ds = .ok s) (hfit : ∀ r ∈ requests, r.Fits shape) :
    ∃ t, create shape (requests.foldl LayoutPlan.addHeap ds) = .ok t := by
  induction requests generalizing ds s with
  | nil => exact ⟨s, hc⟩
  | cons r rest ih =>
    obtain ⟨hr, hrest⟩ := List.forall_mem_cons.1 hfit
    obtain ⟨order, group, target⟩ := r
    obtain ⟨hs, hshape, hdesc, _⟩ := create_spec hc
    obtain ⟨result, t, _, _, _, _, hresult⟩ := addHeap_spec hs order group target
    cases result with
    | error err => exact absurd (hshape ▸ hr) hresult.1
    | ok =>
      obtain ⟨_, hadd, _⟩ := hresult
      rw [hdesc] at hadd
      exact ih (create_addIndices hc hadd) hrest

/-! ## Calls for foremost entries -/

def extremeOf (s : Store) (r : HeapRequest) (probe : Entry) :
    Checked (Except Error (Option Entry) × Store) :=
  s.extreme r.1 probe r.2.1 r.2.2

def extremes : List (HeapRequest × Entry) → Store →
    Checked (List (Except Error (Option Entry)) × Store)
  | [], s => return ([], s)
  | (r, probe) :: rest, s => do
    let (answer, s) ← s.extremeOf r probe
    let (answers, s) ← extremes rest s
    return (answer :: answers, s)

def IsForemost (s : Store) (r : HeapRequest) (probe : Entry) (found : Option Entry) : Prop :=
  ∃ best : Option Handle, s.source.Foremost r.1 r.2.1 r.2.2 probe best ∧
    found = best.bind s.entry?

theorem IsForemost.congr {found : Option Entry} (hslab : t.slab = s.slab)
    (h : s.IsForemost r probe found) : t.IsForemost r probe found := by
  obtain ⟨best, hbest, rfl⟩ := h
  have hsource : t.source = s.source := by rw [source, hslab]; rfl
  refine ⟨best, hsource ▸ hbest, ?_⟩
  have hentry : t.entry? = s.entry? := hsource
  rw [hentry]

theorem IsForemost.unique {a b : Option Entry} (ha : s.IsForemost r probe a)
    (hb : s.IsForemost r probe b) : a = b := by
  obtain ⟨x, hx, rfl⟩ := ha
  obtain ⟨y, hy, rfl⟩ := hb
  rw [hx.unique hy]

theorem extreme_served (hs : s.Invariant) (hp : probe.Conforms s.shape)
    (hd : ∃ d ∈ s.descriptors, d.form = r.form) :
    ∃ found, s.extremeOf r probe = .ok (.ok found, s) ∧
      s.peek r.1 probe r.2.1 r.2.2 = .ok found ∧ s.IsForemost r probe found := by
  obtain ⟨_, hdescriptor, hform⟩ := hd
  obtain ⟨d, hmem, rfl⟩ := List.mem_map.1 hdescriptor
  obtain ⟨slot, hslot⟩ := List.mem_iff_getElem?.1 hmem
  obtain ⟨first, hfirst⟩ := exists_findHeap? hslot hform
  obtain ⟨d', hd', hform'⟩ := form_of_findHeap? hfirst
  obtain ⟨best, hget, hforemost⟩ := getHandle_foremost hs hp hd' hform'
  refine ⟨best.bind s.entry?, ?_, ?_, best, hforemost, rfl⟩
  · simp [extremeOf, extreme, hfirst, get, hget]
  · simp [peek, hfirst, get, hget]

theorem findHeap?_eq_none (hd : ∀ d ∈ s.descriptors, d.form ≠ r.form) :
    s.findHeap? r.1 r.2.1 r.2.2 = none := by
  cases hf : s.findHeap? r.1 r.2.1 r.2.2 with
  | none => rfl
  | some slot =>
    obtain ⟨d, hslot, hform⟩ := form_of_findHeap? hf
    exact absurd hform (hd _ (List.mem_map_of_mem (List.mem_of_getElem? hslot)))

theorem extreme_demanded (hs : s.Invariant) (hp : probe.Conforms s.shape) (hfit : r.Fits s.shape)
    (hd : ∀ d ∈ s.descriptors, d.form ≠ r.form) :
    ∃ found t, s.extremeOf r probe = .ok (.ok found, t) ∧ t.Invariant ∧ t.shape = s.shape ∧
      t.slab = s.slab ∧ t.descriptors = LayoutPlan.addHeap s.descriptors r ∧
      s.IsForemost r probe found := by
  have hnone := findHeap?_eq_none hd
  obtain ⟨order, group, target⟩ := r
  obtain ⟨result, t, hadd, ht, hshape, hslab, hresult⟩ := addHeap_spec hs order group target
  cases result with
  | error err => exact absurd hfit hresult.1
  | ok =>
    obtain ⟨_, _, hdesc⟩ := hresult
    obtain ⟨d, hd, hform⟩ := (LayoutPlan.form_of_mem_heapLayout s.descriptors order group target).1
    obtain ⟨found, _, hpeek, hforemost⟩ := extreme_served (r := (order, group, target)) ht
      (hshape ▸ hp) ⟨d, hdesc ▸ List.mem_append_right _ hd, hform⟩
    refine ⟨found, t, ?_, ht, hshape, hslab, hdesc, hforemost.congr hslab.symm⟩
    have hnone : s.findHeap? order group target = none := hnone
    have hpeek : t.peek order probe group target = .ok found := hpeek
    simp [extremeOf, extreme, hnone, hadd, hpeek]

def Answered (s : Store) (call : HeapRequest × Entry) (answer : Except Error (Option Entry)) :
    Prop :=
  ∃ found, answer = .ok found ∧ s.IsForemost call.1 call.2 found

theorem Answered.congr {call : HeapRequest × Entry} {answer : Except Error (Option Entry)}
    (hslab : t.slab = s.slab) (h : s.Answered call answer) : t.Answered call answer := by
  obtain ⟨found, rfl, hforemost⟩ := h
  exact ⟨found, rfl, hforemost.congr hslab⟩

theorem Answered.unique {call : HeapRequest × Entry} {a b : Except Error (Option Entry)}
    (ha : s.Answered call a) (hb : s.Answered call b) : a = b := by
  obtain ⟨x, rfl, hx⟩ := ha
  obtain ⟨y, rfl, hy⟩ := hb
  rw [hx.unique hy]

theorem extremes_served {calls : List (HeapRequest × Entry)} (hs : s.Invariant)
    (hcalls : ∀ call ∈ calls, call.2.Conforms s.shape ∧ ∃ d ∈ s.descriptors, d.form = call.1.form) :
    ∃ answers, extremes calls s = .ok (answers, s) ∧
      List.Forall₂ s.Answered calls answers := by
  induction calls with
  | nil => exact ⟨[], rfl, .nil⟩
  | cons call rest ih =>
    obtain ⟨⟨hp, hd⟩, hrest⟩ := List.forall_mem_cons.1 hcalls
    obtain ⟨found, hextreme, _, hforemost⟩ := extreme_served hs hp hd
    obtain ⟨answers, hall, hanswered⟩ := ih hrest
    exact ⟨.ok found :: answers, by simp [extremes, hextreme, hall],
      .cons ⟨found, rfl, hforemost⟩ hanswered⟩

theorem extremes_demanded {calls : List (HeapRequest × Entry)} (hs : s.Invariant)
    (hp : ∀ call ∈ calls, call.2.Conforms s.shape)
    (hfit : ∀ call ∈ calls, call.1.Fits s.shape) (hdistinct : (calls.map Prod.fst).Nodup)
    (hnew : ∀ call ∈ calls, ∀ d ∈ s.descriptors, d.form ≠ call.1.form) :
    ∃ answers t, extremes calls s = .ok (answers, t) ∧ t.Invariant ∧ t.shape = s.shape ∧
      t.slab = s.slab ∧
      t.descriptors = (calls.map Prod.fst).foldl LayoutPlan.addHeap s.descriptors ∧
      List.Forall₂ s.Answered calls answers := by
  induction calls generalizing s with
  | nil => exact ⟨[], s, rfl, hs, rfl, rfl, rfl, .nil⟩
  | cons call rest ih =>
    obtain ⟨r, probe⟩ := call
    rw [List.forall_mem_cons] at hp hfit hnew
    obtain ⟨hother, hdistinct⟩ := List.nodup_cons.1 hdistinct
    obtain ⟨found, t, hextreme, ht, hshape, hslab, hdesc, hforemost⟩ :=
      extreme_demanded hs hp.1 hfit.1 hnew.1
    have hnew' : ∀ call ∈ rest, ∀ d ∈ t.descriptors, d.form ≠ call.1.form := by
      intro call hcall d hd hform
      obtain ⟨order, group, target⟩ := r
      rw [hdesc, LayoutPlan.addHeap] at hd
      obtain hd | hd := List.mem_append.1 hd
      · exact hnew.2 call hcall d hd hform
      · obtain hhash | hheap := (LayoutPlan.form_of_mem_heapLayout _ _ _ _).2 d hd
        · cases hhash.symm.trans hform
        · -- A call for this heap would be the same one a second time.
          have hsame : (order, group, target) = call.1 :=
            HeapRequest.form_injective (hheap.symm.trans hform)
          exact hother (List.mem_map.2 ⟨call, hcall, hsame.symm⟩)
    obtain ⟨answers, u, hall, hu, hshape', hslab', hdesc', hanswered⟩ := ih ht
      (fun call hcall => hshape ▸ hp.2 call hcall) (fun call hcall => hshape ▸ hfit.2 call hcall)
      hdistinct hnew'
    refine ⟨.ok found :: answers, u, by simp [extremes, hextreme, hall], hu, hshape'.trans hshape,
      hslab'.trans hslab, ?_, .cons ⟨found, rfl, hforemost⟩
        (hanswered.imp fun _ _ h => h.congr hslab.symm)⟩
    rw [hdesc', hdesc]
    rfl

theorem form_primary {primary : Descriptor} {rest : List Descriptor}
    (hc : create shape (primary :: rest) = .ok s) : primary.form ≠ r.form := by
  intro hform
  obtain ⟨order, group, target⟩ := r
  obtain ⟨form, partition⟩ := primary
  obtain rfl : form = .heap order group target := hform
  rw [create, if_neg (by simp)] at hc
  obtain ⟨_, hall, _⟩ := Checked.bind_eq_ok.1 hc
  obtain ⟨⟨⟩, hv, _⟩ := Checked.bind_eq_ok.1 hall
  obtain ⟨_, _, hcheck⟩ := Descriptor.validate_eq_ok_iff.1 hv
  obtain ⟨_, _, _, hslot, _⟩ := Descriptor.checkForm_heap_iff.1 hcheck
  exact hslot rfl

/-! ## Declared in advance or on demand -/

/-- Two stores answer calls for some heaps alike, and are not changed by them. -/
def ServeAlike (s t : Store) (shape : Shape) (requests : List HeapRequest) : Prop :=
  ∀ r ∈ requests, ∀ key, key.Conforms shape → ∃ found,
    s.extremeOf r key = .ok (.ok found, s) ∧ t.extremeOf r key = .ok (.ok found, t) ∧
    s.peek r.1 key r.2.1 r.2.2 = .ok found ∧ t.peek r.1 key r.2.1 r.2.2 = .ok found

theorem serveAlike {requests : List HeapRequest} (hs : s.Invariant) (ht : t.Invariant)
    (hshape : s.shape = shape) (hshape' : t.shape = shape) (hslab : t.slab = s.slab)
    (hd : ∀ r ∈ requests, ∃ d ∈ s.descriptors, d.form = r.form)
    (hdesc : t.descriptors = s.descriptors) : s.ServeAlike t shape requests := by
  intro r hr key hp
  obtain ⟨found, hextreme, hpeek, hforemost⟩ := extreme_served hs (hshape ▸ hp) (hd r hr)
  obtain ⟨found', hextreme', hpeek', hforemost'⟩ :=
    extreme_served ht (hshape' ▸ hp) (hdesc ▸ hd r hr)
  obtain rfl := (hforemost.congr hslab).unique hforemost'
  exact ⟨found, hextreme, hextreme', hpeek, hpeek'⟩

/-- A call that is refused changes nothing, and one that is answered is from then on answered without
a further index. -/
theorem extremeOf_settled (hs : s.Invariant) (hp : probe.Conforms s.shape)
    {answer : Except Error (Option Entry)} (hextreme : s.extremeOf r probe = .ok (answer, t)) :
    (∀ err, answer = .error err → t = s) ∧ ∀ found, answer = .ok found →
      ∀ key, key.Conforms s.shape → ∃ found', t.extremeOf r key = .ok (.ok found', t) := by
  obtain ⟨answer', t', hextreme', ⟨ht, hshape⟩, _, hrefused⟩ :=
    extreme_spec hs hp r.1 r.2.1 r.2.2
  obtain ⟨rfl, rfl⟩ := Prod.mk.inj (Except.ok.inj (hextreme.symm.trans hextreme'))
  refine ⟨hrefused, fun found hanswer key hkey => ?_⟩
  suffices hd : ∃ d ∈ t.descriptors, d.form = r.form by
    obtain ⟨found', hserved, _⟩ := extreme_served ht (hshape ▸ hkey) hd
    exact ⟨found', hserved⟩
  by_cases hthere : ∃ d ∈ s.descriptors, d.form = r.form
  · obtain ⟨_, hserved, _⟩ := extreme_served hs hp hthere
    obtain ⟨-, rfl⟩ := Prod.mk.inj (Except.ok.inj (hextreme.symm.trans hserved))
    exact hthere
  · have hnone := findHeap?_eq_none (r := r) fun d hd hform => hthere ⟨d, hd, hform⟩
    obtain ⟨result, u, hadd, _, _, _, hresult⟩ := addHeap_spec hs r.1 r.2.1 r.2.2
    rw [extremeOf, extreme, hnone] at hextreme
    dsimp only at hextreme
    rw [hadd, Checked.ok_bind] at hextreme
    cases result with
    | error err =>
      obtain ⟨rfl, -⟩ := Prod.mk.inj (Except.ok.inj hextreme)
      cases hanswer
    | ok =>
      obtain ⟨_, _, hextreme⟩ := Checked.bind_eq_ok.1 hextreme
      obtain ⟨-, rfl⟩ := Prod.mk.inj (Except.ok.inj hextreme)
      obtain ⟨_, _, hdesc⟩ := hresult
      obtain ⟨d, hd, hform⟩ := (LayoutPlan.form_of_mem_heapLayout s.descriptors r.1 r.2.1 r.2.2).1
      exact ⟨d, hdesc ▸ List.mem_append_right _ hd, hform⟩

/-- Two stores hold the same entries, one in some layout, the other with heaps declared beside it. -/
structure Readied (shape : Shape) (layout : List Descriptor) (requests : List HeapRequest)
    (plain eager : Store) : Prop where
  plain_invariant : plain.Invariant
  eager_invariant : eager.Invariant
  plain_shape : plain.shape = shape
  eager_shape : eager.shape = shape
  slab : eager.slab = plain.slab
  plain_layout : plain.descriptors = layout
  eager_layout : eager.descriptors = requests.foldl LayoutPlan.addHeap layout

section Readied

variable {layout : List Descriptor} {requests : List HeapRequest} {plain eager : Store}

/-- The same changes take a store of a layout, and one that declares heaps beside it, to two stores
that are readied, with the same answers. -/
theorem exists_readied {ρ : Type} {changes : List (Handling ρ)}
    (hc : create shape layout = .ok s) (hfit : ∀ r ∈ requests, r.Fits shape)
    (ha : Handling.Admissible changes s) : ∃ declared answers eager plain,
      create shape (requests.foldl LayoutPlan.addHeap layout) = .ok declared ∧
      Handling.performAll changes declared = .ok (answers, eager) ∧
      Handling.performAll changes s = .ok (answers, plain) ∧
      Readied shape layout requests plain eager := by
  obtain ⟨extra, hfold, hloose, _⟩ := LayoutPlan.exists_foldl_addHeap requests layout
  obtain ⟨declared, hdeclared⟩ := exists_create_heaps hc hfit
  obtain ⟨hs, hshape, hdesc, _⟩ := create_spec hc
  obtain ⟨ht, hshape', hdesc', _⟩ := create_spec hdeclared
  have hextends : s.Extends declared extra :=
    ⟨hshape'.trans hshape.symm, (create_slab hdeclared).trans (create_slab hc).symm,
      by rw [hdesc', hfold, hdesc]⟩
  obtain ⟨answers, plain, eager, hplain, heager, hp, he, hkept⟩ :=
    hextends.performAll hloose hs ht ha
  obtain ⟨_, _, hplain', hkeeps, hlayout⟩ := Handling.performAll_spec hs ha
  obtain ⟨-, rfl⟩ := Prod.mk.inj (Except.ok.inj (hplain.symm.trans hplain'))
  have hpshape : plain.shape = shape := hkeeps.shape.trans hshape
  have hpdesc : plain.descriptors = layout := hlayout.trans hdesc
  exact ⟨declared, answers, eager, plain, hdeclared, heager, hplain,
    { plain_invariant := hp
      eager_invariant := he
      plain_shape := hpshape
      eager_shape := hkept.shape.trans hpshape
      slab := hkept.slab
      plain_layout := hpdesc
      eager_layout := by rw [hkept.descriptors, hpdesc, hfold] }⟩

theorem Readied.served (h : Readied shape layout requests plain eager) :
    ∀ r ∈ requests, ∃ d ∈ eager.descriptors, d.form = r.form := by
  intro r hr
  obtain ⟨extra, hfold, _, hforms⟩ := LayoutPlan.exists_foldl_addHeap requests layout
  obtain ⟨d, hd, hform⟩ := hforms r hr
  exact ⟨d, h.eager_layout ▸ hfold ▸ List.mem_append_right _ hd, hform⟩

/-- Calls for the heaps, one for each, find the same entries whether the heaps were declared or not,
and bring the store without them to the layout of the other. -/
theorem Readied.extremes {calls : List (HeapRequest × Entry)}
    (h : Readied shape layout (calls.map Prod.fst) plain eager)
    (hkeys : ∀ call ∈ calls, call.2.Conforms shape)
    (hfit : ∀ r ∈ calls.map Prod.fst, r.Fits shape) (hdistinct : (calls.map Prod.fst).Nodup)
    (hnew : ∀ r ∈ calls.map Prod.fst, ∀ d ∈ layout, d.form ≠ r.form) : ∃ found grown,
      extremes calls plain = .ok (found, grown) ∧ extremes calls eager = .ok (found, eager) ∧
      (∀ answer ∈ found, answer.isOk = true) ∧ grown.descriptors = eager.descriptors ∧
      grown.ServeAlike eager shape (calls.map Prod.fst) := by
  have hcall {call : HeapRequest × Entry} (hc : call ∈ calls) : call.1 ∈ calls.map Prod.fst :=
    List.mem_map_of_mem hc
  obtain ⟨found, grown, hgrown, hg, hgshape, hgslab, hgdesc, hfound⟩ :=
    extremes_demanded h.plain_invariant (fun call hc => h.plain_shape ▸ hkeys call hc)
      (fun call hc => h.plain_shape ▸ hfit _ (hcall hc)) hdistinct
      fun call hc d hd => hnew _ (hcall hc) d (h.plain_layout ▸ hd)
  obtain ⟨found', hserve, hfound'⟩ := extremes_served h.eager_invariant fun call hc =>
    ⟨h.eager_shape ▸ hkeys call hc, h.served _ (hcall hc)⟩
  have hunique : Relator.RightUnique (List.Forall₂ eager.Answered) :=
    Relator.RightUnique.forall₂ fun _ _ _ ha hb => ha.unique hb
  obtain rfl := hunique hfound' (hfound.imp fun _ _ ha => ha.congr h.slab)
  have hlayouts : grown.descriptors = eager.descriptors := by
    rw [hgdesc, h.plain_layout, h.eager_layout]
  refine ⟨found', grown, hgrown, hserve, fun answer hanswer => ?_, hlayouts, ?_⟩
  · obtain ⟨_, _, _, rfl, _⟩ := Checked.exists_of_mem_right hfound' hanswer
    rfl
  · exact serveAlike hg h.eager_invariant (hgshape.trans h.plain_shape) h.eager_shape
      (h.slab.trans hgslab.symm) (hlayouts ▸ h.served) hlayouts.symm

end Readied

/-- A store that declares heaps in advance and one that gets them on demand, after the same changes,
answer the changes alike, come to one layout, and have the same foremost entries for every key. In
any store, a call that is refused changes nothing, and a call that was answered once adds nothing. -/
theorem declared_heaps_agree {primary : Descriptor} {secondary : List Descriptor}
    {requests : List HeapRequest} {ρ : Type} {changes : List (Handling ρ)}
    (hc : LayoutPlan.create shape ⟨some primary, secondary, []⟩ = .ok s)
    (hfit : ∀ r ∈ requests, r.Fits shape) (hdistinct : requests.Nodup)
    (hnew : ∀ r ∈ requests, ∀ d ∈ secondary, d.form ≠ r.form)
    (ha : Handling.Admissible changes s) :
    (∃ declared answers eager plain,
      LayoutPlan.create shape ⟨some primary, secondary, requests⟩ = .ok declared ∧
      Handling.performAll changes declared = .ok (answers, eager) ∧
      Handling.performAll changes s = .ok (answers, plain) ∧
      ∀ calls : List (HeapRequest × Entry), calls.map Prod.fst = requests →
        (∀ call ∈ calls, call.2.Conforms shape) → ∃ found grown,
          extremes calls plain = .ok (found, grown) ∧ extremes calls eager = .ok (found, eager) ∧
          (∀ answer ∈ found, answer.isOk = true) ∧ grown.descriptors = eager.descriptors ∧
          grown.ServeAlike eager shape requests) ∧
    ∀ t : Store, t.Reachable → ∀ (r : HeapRequest) (key : Entry), key.Conforms t.shape →
      ∃ answer u, t.extremeOf r key = .ok (answer, u) ∧ (∀ err, answer = .error err → u = t) ∧
        ∀ found, answer = .ok found → ∀ key', key'.Conforms t.shape →
          ∃ found', u.extremeOf r key' = .ok (.ok found', u) := by
  constructor
  · have hc : create shape (primary :: secondary) = .ok s := hc
    obtain ⟨declared, answers, eager, plain, hdeclared, heager, hplain, hready⟩ :=
      exists_readied hc hfit ha
    refine ⟨declared, answers, eager, plain, hdeclared, heager, hplain, fun calls hcalls hkeys => ?_⟩
    subst hcalls
    refine hready.extremes hkeys hfit hdistinct fun r hr => ?_
    exact List.forall_mem_cons.2 ⟨form_primary hc, hnew r hr⟩
  · intro t ht r key hp
    obtain ⟨answer, u, hextreme, _⟩ := extreme_spec ht.invariant hp r.1 r.2.1 r.2.2
    exact ⟨answer, u, hextreme, extremeOf_settled ht.invariant hp hextreme⟩

def pairRequests : List HeapRequest := [(.ascending, [2], 1), (.descending, [1], 2)]

def pairCalls : List (HeapRequest × Entry) :=
  [((.ascending, [2], 1), ⟨⟨[.int, .int]⟩, [.unset .int, .int 30]⟩),
    ((.descending, [1], 2), ⟨⟨[.int, .int]⟩, [.int 1, .unset .int]⟩)]

def pairChanges : List (Handling (List (Option Error))) :=
  [.insert (samplePair 1 30), .insert (samplePair 1 40), .insert (samplePair 2 30),
    .update ⟨1, 1⟩ (Edit.applyAll [.set 2 (.int 50), .set 1 (.int 1)]),
    .update ⟨1, 1⟩ (Edit.applyAll [.accumulate .minus 1 (.int 2)])]

/-- A heap on a group without a hash index, and one on the key of the primary index. -/
theorem declared_heaps_agree_of_pairs : ∃ s declared answers eager plain grown,
    LayoutPlan.create ⟨[.int, .int]⟩
      ⟨some (.ofForm (.hash [1] true)), [.ofForm (.tree [2] false)], []⟩ = .ok s ∧
    Handling.Admissible pairChanges s ∧
    LayoutPlan.create ⟨[.int, .int]⟩
      ⟨some (.ofForm (.hash [1] true)), [.ofForm (.tree [2] false)], pairRequests⟩ = .ok declared ∧
    Handling.performAll pairChanges declared = .ok (answers, eager) ∧
    Handling.performAll pairChanges s = .ok (answers, plain) ∧
    extremes pairCalls plain =
      .ok ([.ok (some (samplePair 0 30)), .ok (some (samplePair 1 30))], grown) ∧
    grown.descriptors = eager.descriptors ∧
    grown.ServeAlike eager ⟨[.int, .int]⟩ pairRequests := by
  obtain ⟨s, hs⟩ : ∃ s, LayoutPlan.create ⟨[.int, .int]⟩
      ⟨some (.ofForm (.hash [1] true)), [.ofForm (.tree [2] false)], []⟩ = .ok s := ⟨_, rfl⟩
  have ha : Handling.Admissible pairChanges s := by
    obtain rfl := Except.ok.inj hs
    refine ⟨⟨rfl, by decide⟩, fun _ t ht => ?_⟩
    obtain ⟨-, rfl⟩ := Prod.mk.inj (Except.ok.inj ht)
    refine ⟨⟨rfl, by decide⟩, fun _ t ht => ?_⟩
    obtain ⟨-, rfl⟩ := Prod.mk.inj (Except.ok.inj ht)
    refine ⟨⟨rfl, by decide⟩, fun _ t ht => ?_⟩
    obtain ⟨-, rfl⟩ := Prod.mk.inj (Except.ok.inj ht)
    refine ⟨fun e he => ?_, fun _ t ht => ?_⟩
    · obtain rfl := Option.some.inj he
      exact ⟨_, _, rfl, rfl⟩
    obtain ⟨-, rfl⟩ := Prod.mk.inj (Except.ok.inj ht)
    refine ⟨fun e he => ?_, fun _ _ _ => trivial⟩
    obtain rfl := Option.some.inj he
    exact ⟨_, _, rfl, rfl⟩
  have hfit : ∀ r ∈ pairRequests, r.Fits ⟨[.int, .int]⟩ := by
    intro r hr
    obtain rfl | hr := List.mem_cons.1 hr
    · exact ⟨by decide, by decide, by decide, by decide, by decide⟩
    · obtain rfl := List.mem_singleton.1 hr
      exact ⟨by decide, by decide, by decide, by decide, by decide⟩
  obtain ⟨⟨declared, answers, eager, plain, hdeclared, heager, hplain, hcalls⟩, _⟩ :=
    declared_heaps_agree hs hfit (by decide) (by decide) ha
  obtain ⟨found, grown, hgrown, _, _, hlayout, hserve⟩ := hcalls pairCalls rfl (by
    intro call hcall
    obtain rfl | hcall := List.mem_cons.1 hcall
    · exact ⟨rfl, rfl⟩
    · obtain rfl := List.mem_singleton.1 hcall
      exact ⟨rfl, rfl⟩)
  have hfound : ∃ answers plain, Handling.performAll pairChanges s = .ok (answers, plain) ∧
      Prod.fst <$> extremes pairCalls plain =
        .ok [.ok (some (samplePair 0 30)), .ok (some (samplePair 1 30))] := by
    obtain rfl := Except.ok.inj hs
    exact ⟨_, _, rfl, by decide +kernel⟩
  obtain ⟨_, _, hplain', hfound⟩ := hfound
  obtain ⟨-, rfl⟩ := Prod.mk.inj (Except.ok.inj (hplain.symm.trans hplain'))
  rw [hgrown] at hfound
  obtain rfl := Except.ok.inj hfound
  exact ⟨s, declared, answers, eager, plain, grown, hs, ha, hdeclared, heager, hplain, hgrown,
    hlayout, hserve⟩

end Store
end IndexedStore
