import IndexedStore.Proofs.HeapsOnDemand
import IndexedStore.Proofs.Registrations
import IndexedStore.Workspace

/-!
# Recorded layouts

As long as there are ids for all shapes, the registry of a workspace knows for every shape the layout
of the store that was built for it, or took an index, last. Whatever is refused in between, such a
layout stands for a store: a plan like it can be built, and has its descriptors in the same slots.
-/
namespace IndexedStore

theorem lookup_cons_filter {κ α : Type} [DecidableEq κ] (key other : κ) (x : α)
    (rows : List (κ × α)) :
    ((key, x) :: rows.filter fun (k, _) => k ≠ key).lookup other =
      if other = key then some x else rows.lookup other := by
  by_cases h : other = key
  · subst h
    rw [if_pos rfl, List.lookup_cons_self]
  have hkey : (other == key) = false := by simpa using h
  rw [if_neg h, List.lookup_cons, hkey]
  dsimp only
  induction rows with
  | nil => rfl
  | cons row rows ih =>
    obtain ⟨k, y⟩ := row
    by_cases hk : k = key
    · subst hk
      rw [List.filter_cons_of_neg (by simp), List.lookup_cons, hkey]
      exact ih
    · rw [List.filter_cons_of_pos (by simpa using hk), List.lookup_cons, List.lookup_cons, ih]

namespace Registry

variable {r : Registry} {shape : Shape}

theorem Consistent.record (hr : r.Consistent) (new : Shape) (layout : List Descriptor) :
    (r.record new layout).Consistent :=
  have hregister := hr.register new.fields
  ⟨hregister.apart, hregister.made⟩

theorem shapes_record (r : Registry) (new : Shape) (layout : List Descriptor) :
    r.shapes.length ≤ (r.record new layout).shapes.length ∧
      ∀ shape ∈ (r.record new layout).shapes, shape ∈ r.shapes ∨ shape = new := by
  change r.shapes.length ≤ (r.register new.fields).2.shapes.length ∧
    ∀ shape ∈ (r.register new.fields).2.shapes, shape ∈ r.shapes ∨ shape = new
  obtain ⟨h, -⟩ | ⟨h, -⟩ := register_cases r new.fields
  · rw [h]
    exact ⟨le_rfl, fun _ => .inl⟩
  · rw [h]
    refine ⟨by simp, fun shape hshape => ?_⟩
    exact (List.mem_append.1 hshape).imp_right List.mem_singleton.1

/-- While there are ids for all shapes, a layout that is noted is known from then on, and those of
other shapes stay. -/
theorem layout?_record {new : Shape} {layout : List Descriptor} (hr : r.Consistent)
    (hfew : (r.record new layout).shapes.length ≤ UInt32.size) :
    (r.record new layout).layout? shape =
      if shape = new then some layout else r.layout? shape := by
  have hrow (s : RegisteredShape) : (r.record new layout).layouts.lookup s.id =
      if s.id = (r.register new.fields).1.id then some layout else r.layouts.lookup s.id := by
    rw [← layouts_register r new.fields]
    exact lookup_cons_filter _ _ layout _
  have hknown : (r.record new layout).registered? shape =
      if shape = new then some (r.register new.fields).1 else r.registered? shape :=
    registered?_register r new.fields shape
  rw [layout?, hknown]
  by_cases h : shape = new
  · rw [if_pos h, if_pos h]
    exact (hrow _).trans (if_pos rfl)
  rw [if_neg h] at hknown ⊢
  rw [if_neg h, layout?]
  cases hs : r.registered? shape with
  | none => rfl
  | some s =>
    obtain ⟨hissued, hshape⟩ := issued_of_registered? (hknown.trans hs)
    refine (hrow s).trans (if_neg fun hid => h ?_)
    have hsame := Issued.same_iff (hr.record new layout) hfew hissued (issued_register r new.fields)
    rw [← hshape, hsame.1 (beq_iff_eq.2 hid), shape_register]

end Registry

namespace Store

variable {s t : Store} {shape : Shape} {d : Descriptor} {slot : Nat}

/-- A layout stands for a store of a shape. -/
def Buildable (shape : Shape) (layout : List Descriptor) : Prop :=
  ∃ s, create shape layout = .ok s

theorem Buildable.concat {layout : List Descriptor} (hb : Buildable shape layout)
    (hv : d.validate shape layout.length layout = .ok ()) : Buildable shape (layout ++ [d]) := by
  obtain ⟨s, hc⟩ := hb
  obtain ⟨index, hindex⟩ := Descriptor.exists_ofDescriptor hv
  rw [create] at hc
  split at hc
  · cases hc
  next hne =>
    obtain ⟨declared, hall, _⟩ := Checked.bind_eq_ok.1 hc
    refine ⟨⟨shape, declared ++ [⟨d, index⟩], .empty⟩, ?_⟩
    rw [create, if_neg (by simp), declareAll_append, hall]
    simp [declareAll, hv, hindex]

theorem validate_of_addIndex (hadd : s.addIndex d = .ok (.ok (slot, t))) :
    d.validate s.shape s.descriptors.length s.descriptors = .ok () := by
  have hlength : s.descriptors.length = s.indices.length := by simp [descriptors]
  rw [hlength]
  rw [addIndex, nextIndex] at hadd
  cases hv : d.validate s.shape s.indices.length s.descriptors with
  | ok => rfl
  | error err =>
    rw [hv] at hadd
    cases hadd

section Growth

variable (hs : s.Invariant) (hb : Buildable s.shape s.descriptors)
include hs hb

theorem Buildable.addIndex (hadd : s.addIndex d = .ok (.ok (slot, t))) :
    t.Invariant ∧ t.shape = s.shape ∧ t.descriptors = s.descriptors ++ [d] ∧
      Buildable t.shape t.descriptors := by
  obtain ⟨result, hadd', hresult⟩ := addIndex_spec hs d
  obtain rfl := Except.ok.inj (hadd'.symm.trans hadd)
  obtain ⟨_, ht, hshape, _, hdesc, _⟩ := hresult
  refine ⟨ht, hshape, hdesc, ?_⟩
  rw [hshape, hdesc]
  exact hb.concat (validate_of_addIndex hadd)

theorem Buildable.addIndices {added : List Descriptor}
    (hadd : addIndices added s = .ok (.ok (), t)) : Buildable t.shape t.descriptors := by
  induction added generalizing s with
  | nil =>
    obtain ⟨-, rfl⟩ := Prod.mk.inj (Except.ok.inj hadd)
    exact hb
  | cons d rest ih =>
    obtain ⟨result, hfirst, hadd⟩ := Checked.bind_eq_ok.1 hadd
    cases result with
    | error err => cases hadd
    | ok grown =>
      obtain ⟨ht, _, _, hb⟩ := Buildable.addIndex hs hb hfirst
      exact ih ht hb hadd

theorem Buildable.extreme {probe : Entry} (hp : probe.Conforms s.shape) (order : Direction)
    (group : List Nat) (target : Nat) :
    ∃ answer t, s.extreme order probe group target = .ok (answer, t) ∧
      match s.findHeap? order group target, answer with
      | none, .ok _ => t.Invariant ∧ t.shape = s.shape ∧ Buildable t.shape t.descriptors ∧
          ∃ added, added ≠ [] ∧ t.descriptors = s.descriptors ++ added
      | _, _ => t = s := by
  rw [Store.extreme]
  cases hf : s.findHeap? order group target with
  | some slot =>
    obtain ⟨found, hfound⟩ := exists_get hs hp (List.getElem?_eq_getElem (lt_of_findHeap? hf))
    exact ⟨.ok found, s, by simp [hfound], rfl⟩
  | none =>
    obtain ⟨result, t, hadd, ht, hshape, _, hresult⟩ := addHeap_spec hs order group target
    dsimp only
    rw [hadd, Checked.ok_bind]
    cases result with
    | error err => exact ⟨.error err, t, rfl, hresult.2⟩
    | ok =>
      obtain ⟨_, hadded, hdesc⟩ := hresult
      obtain ⟨found, hfound⟩ := exists_peek ht (hshape ▸ hp) order group target
      obtain ⟨d, hd, _⟩ := (LayoutPlan.form_of_mem_heapLayout s.descriptors order group target).1
      exact ⟨.ok found, t, by simp [hfound], ht, hshape, hb.addIndices hs hadded, _,
        List.ne_nil_of_mem hd, hdesc⟩

end Growth

end Store

/-! ## Requests to a workspace -/

inductive Event where
  /-- It was built. -/
  | built (shape : Shape) (layout : List Descriptor)
  /-- It took one more index, or a heap with the hash index it needs. -/
  | grown (shape : Shape) (layout : List Descriptor)
  deriving DecidableEq, Repr

namespace Event

def shape : Event → Shape
  | built shape _ | grown shape _ => shape

def layout : Event → List Descriptor
  | built _ layout | grown _ layout => layout

def ofBuilt (s : Store) : Event := .built s.shape s.descriptors

def ofGrown (s : Store) : Event := .grown s.shape s.descriptors

/-- The layout that the last event for a shape left; the latest event comes first. -/
def last? (shape : Shape) (log : List Event) : Option (List Descriptor) :=
  (log.find? fun event => event.shape = shape).map layout

end Event

inductive Request : Type 1 where
  | create (number : Nat) (shape : Shape) (layout : List Descriptor)
  | build (number : Nat) (shape : Shape) (plan : LayoutPlan)
  | addIndex (number : Nat) (descriptor : Descriptor)
  | extreme (number : Nat) (order : Direction) (probe : Entry) (group : List Nat) (target : Nat)
  | change {ρ : Type} (number : Nat) (handling : Handling ρ)

namespace Request

/-- The workspace after a request. A request that is refused, or for a store that is not there,
leaves it as it is. -/
def serve : Request → Workspace → Checked Workspace
  | create number shape layout, w => return (w.create number shape layout).toOption.getD w
  | build number shape plan, w => return (w.build number shape plan).toOption.getD w
  | addIndex number d, w =>
    match w.store? number with
    | some s => Prod.snd <$> w.addIndex number s d
    | none => return w
  | extreme number order probe group target, w =>
    match w.store? number with
    | some s => Prod.snd <$> w.extreme number s order probe group target
    | none => return w
  | change number handling, w =>
    match w.store? number with
    | some s => do
      let (_, store) ← handling.perform s.store
      return w.put number { s with store }
    | none => return w

/-- What comes of a request, by the answers of the stores alone. -/
def event? (w : Workspace) : Request → Option Event
  | create _ shape layout => (Store.create shape layout).toOption.map .ofBuilt
  | build _ shape plan => (plan.create shape).toOption.map .ofBuilt
  | addIndex number d => do
    match (← w.store? number).store.addIndex d with
    | .ok (.ok (_, t)) => some (.ofGrown t)
    | _ => none
  | extreme number order probe group target => do
    let s := (← w.store? number).store
    match s.findHeap? order group target, s.extreme order probe group target with
    | none, .ok (.ok _, t) => some (.ofGrown t)
    | _, _ => none
  | change _ _ => none

/-- Requests in turn; what comes of them goes into a log, the latest event first. -/
def serveAll : List Request → Workspace → List Event → Checked (Workspace × List Event)
  | [], w, log => return (w, log)
  | request :: rest, w, log => do
    serveAll rest (← request.serve w) ((request.event? w).toList ++ log)

def named? : Request → Option Shape
  | create _ shape _ | build _ shape _ => some shape
  | addIndex _ _ | extreme _ _ _ _ _ | change _ _ => none

def signatures (requests : List Request) : List String :=
  (requests.filterMap named?).map Shape.signature

def Allowed (w : Workspace) : Request → Prop
  | extreme number _ probe _ _ => ∀ s, w.store? number = some s → probe.Conforms s.store.shape
  | change number handling => ∀ s, w.store? number = some s → handling.Allowed s.store
  | create _ _ _ | build _ _ _ | addIndex _ _ => True

def Admissible : List Request → Workspace → Prop
  | [], _ => True
  | request :: rest, w => request.Allowed w ∧ ∀ w', request.serve w = .ok w' → Admissible rest w'

end Request

namespace SettledStore

variable {s : SettledStore}

theorem exists_isLoose (hs : s.store.Invariant) : ∃ loose, s.isLoose 0 s.openProbe = .ok loose := by
  obtain ⟨⟨descriptor, index⟩, hprimary⟩ : ∃ d, s.store.indices[0]? = some d :=
    ⟨_, List.getElem?_eq_getElem (List.length_pos_of_ne_nil hs.primary)⟩
  have hreads : index.Reads s.store.shape := (hs.stands _ (List.mem_of_getElem? hprimary)).reads
  have hopen : s.openProbe.Conforms s.store.shape :=
    ⟨by simp [openProbe, Entry.blank, Entry.Typed, Function.comp_def, Value.type], rfl⟩
  rw [isLoose, Store.declared_eq hprimary, Checked.ok_bind]
  have hfit := hreads.fits hopen
  dsimp only
  split
  · exact ⟨true, rfl⟩
  · cases index with
    | hash c => exact ⟨_, Projection.isPartial_eq hfit⟩
    | list | tree | array | heap => exact ⟨false, rfl⟩

theorem exists_grown (hs : s.store.Invariant) (t : Store) :
    ∃ after, s.grown t = .ok after ∧ after.store = t := by
  obtain ⟨loose, hloose⟩ := exists_isLoose hs
  exact ⟨_, by rw [grown, hloose]; rfl, rfl⟩

end SettledStore

namespace Workspace

variable {w : Workspace} {s after : SettledStore} {number : Nat} {log : List Event}

theorem store?_put (w : Workspace) (number other : Nat) (s : SettledStore) :
    (w.put number s).store? other = if other = number then some s else w.store? other :=
  lookup_cons_filter number other s w.stores

/-- The stores of a workspace were built, and its registry knows the last layout of every shape that
the log has, as long as there are ids for all shapes. -/
structure Recorded (w : Workspace) (log : List Event) : Prop where
  /-- Every store keeps its invariant, could be built as it stands, and was built. -/
  stores : ∀ number s, w.store? number = some s → s.store.Invariant ∧
    Store.Buildable s.store.shape s.store.descriptors ∧
    ∃ layout, .built s.store.shape layout ∈ log
  /-- Every event left a layout that a store can be built on, for a shape that one was built for. -/
  events : ∀ event ∈ log, Store.Buildable event.shape event.layout ∧
    ∃ layout, .built event.shape layout ∈ log
  consistent : w.registry.Consistent
  /-- The registry has shapes of stores that were built, and no others. -/
  registered : ∀ shape ∈ w.registry.shapes, ∃ layout, .built shape layout ∈ log
  layouts : w.registry.shapes.length ≤ UInt32.size →
    ∀ shape, w.registry.layout? shape = Event.last? shape log

theorem recorded_empty : empty.Recorded [] where
  stores := by simp [store?, empty]
  events := by simp
  consistent := Registry.consistent_empty
  registered := by simp [empty, Registry.empty]
  layouts _ _ := rfl

namespace Recorded

variable (hw : w.Recorded log)
include hw

theorem put (hs : after.store.Invariant)
    (hb : Store.Buildable after.store.shape after.store.descriptors)
    (hbuilt : ∃ layout, .built after.store.shape layout ∈ log) :
    (w.put number after).Recorded log where
  stores other s hother := by
    rw [store?_put] at hother
    split at hother
    · obtain rfl := Option.some.inj hother
      exact ⟨hs, hb, hbuilt⟩
    · exact hw.stores other s hother
  events := hw.events
  consistent := hw.consistent
  registered := hw.registered
  layouts := hw.layouts

theorem putRecorded {event : Event} (hs : after.store.Invariant)
    (hb : Store.Buildable after.store.shape after.store.descriptors)
    (hshape : event.shape = after.store.shape) (hlayout : event.layout = after.store.descriptors)
    (hbuilt : ∃ layout, .built after.store.shape layout ∈ event :: log) :
    (w.putRecorded number after).Recorded (event :: log) where
  stores other s hother := by
    have hlookup : (w.putRecorded number after).store? other = (w.put number after).store? other :=
      rfl
    rw [hlookup, store?_put] at hother
    split at hother
    · obtain rfl := Option.some.inj hother
      exact ⟨hs, hb, hbuilt⟩
    · obtain ⟨hs, hb, layout, hmem⟩ := hw.stores other s hother
      exact ⟨hs, hb, layout, List.mem_cons_of_mem _ hmem⟩
  events := by
    refine List.forall_mem_cons.2 ⟨?_, fun old hold => ?_⟩
    · rw [hshape, hlayout]
      exact ⟨hb, hbuilt⟩
    · obtain ⟨hb, layout, hmem⟩ := hw.events old hold
      exact ⟨hb, layout, List.mem_cons_of_mem _ hmem⟩
  consistent := hw.consistent.record _ _
  registered shape hmem := by
    obtain hold | rfl := (Registry.shapes_record _ _ _).2 shape hmem
    · obtain ⟨layout, hmem⟩ := hw.registered shape hold
      exact ⟨layout, List.mem_cons_of_mem _ hmem⟩
    · exact hbuilt
  layouts hfew shape := by
    have hbefore := (Registry.shapes_record _ _ _).1.trans hfew
    refine (Registry.layout?_record hw.consistent hfew).trans ?_
    rw [hw.layouts hbefore, Event.last?, Event.last?, List.find?_cons, hshape]
    by_cases h : shape = after.store.shape
    · simp [h, hlayout]
    · simp [h, Ne.symm h]

theorem built {shape : Shape} {layout : List Descriptor} {t : Store}
    (hc : Store.create shape layout = .ok t) :
    (w.putRecorded number (.ofStore t)).Recorded (.ofBuilt t :: log) := by
  obtain ⟨ht, hshape, hdesc, _⟩ := Store.create_spec hc
  have hb : Store.Buildable t.shape t.descriptors := ⟨t, by rw [hshape, hdesc, hc]⟩
  exact hw.putRecorded ht hb rfl rfl ⟨_, List.mem_cons_self⟩

variable (hnumber : w.store? number = some s)
include hnumber

/-- A store that took indices is put in place with its layout. -/
theorem grown {t : Store} {added : List Descriptor} (ht : t.Invariant)
    (hshape : t.shape = s.store.shape) (hdesc : t.descriptors = s.store.descriptors ++ added)
    (hne : added ≠ []) (hb : Store.Buildable t.shape t.descriptors) (hafter : after.store = t) :
    (w.putGrown number s after).Recorded (.ofGrown t :: log) := by
  subst hafter
  obtain ⟨_, _, layout, hmem⟩ := hw.stores number s hnumber
  have hlength := congrArg List.length hdesc
  have hpos := List.length_pos_of_ne_nil hne
  simp only [Store.descriptors, List.length_map, List.length_append] at hlength
  rw [putGrown, if_pos (by omega)]
  exact hw.putRecorded ht hb rfl rfl ⟨layout, hshape ▸ List.mem_cons_of_mem _ hmem⟩

theorem kept (hafter : after.store = s.store) : (w.putGrown number s after).Recorded log := by
  obtain ⟨hs, hb, hbuilt⟩ := hw.stores number s hnumber
  rw [putGrown, hafter, if_neg (Nat.lt_irrefl _)]
  exact hw.put (hafter ▸ hs) (hafter ▸ hb) (hafter ▸ hbuilt)

end Recorded

theorem create_eq (w : Workspace) (number : Nat) (shape : Shape) (layout : List Descriptor) :
    w.create number shape layout =
      (Store.create shape layout).map fun t => w.putRecorded number (.ofStore t) := by
  rw [create]
  cases Store.create shape layout <;> rfl

theorem build_eq (w : Workspace) (number : Nat) (shape : Shape) (plan : LayoutPlan) :
    w.build number shape plan =
      (plan.create shape).map fun t => w.putRecorded number (.ofStore t) := by
  rw [build, LayoutPlan.create]
  cases plan.descriptors with
  | error err => rfl
  | ok layout => exact w.create_eq number shape layout

namespace Recorded

variable (hw : w.Recorded log) (hnumber : w.store? number = some s)
include hw hnumber

theorem addIndex (d : Descriptor) : ∃ answer w', w.addIndex number s d = .ok (answer, w') ∧
    w'.Recorded (((Request.addIndex number d).event? w).toList ++ log) := by
  obtain ⟨hs, hb, _⟩ := hw.stores number s hnumber
  obtain ⟨result, hadd, _⟩ := Store.addIndex_spec hs d
  rw [Workspace.addIndex, SettledStore.addIndex, Request.event?, hnumber]
  dsimp only [Option.bind_eq_bind, Option.bind_some]
  rw [hadd, Checked.ok_bind]
  match result with
  | .error err => exact ⟨.error err, w, rfl, hw⟩
  | .ok (slot, t) =>
    obtain ⟨ht, hshape, hdesc, hb⟩ := Store.Buildable.addIndex hs hb hadd
    obtain ⟨after, hgrown, hafter⟩ := s.exists_grown hs t
    refine ⟨.ok slot, w.putGrown number s after, by dsimp only; rw [hgrown]; rfl, ?_⟩
    exact hw.grown hnumber ht hshape hdesc (by simp) hb hafter

theorem extreme {probe : Entry} (hp : probe.Conforms s.store.shape) (order : Direction)
    (group : List Nat) (target : Nat) :
    ∃ answer w', w.extreme number s order probe group target = .ok (answer, w') ∧
      w'.Recorded (((Request.extreme number order probe group target).event? w).toList ++ log) := by
  obtain ⟨hs, hb, _⟩ := hw.stores number s hnumber
  obtain ⟨answer, t, hextreme, ht⟩ := hb.extreme hs hp order group target
  obtain ⟨after, hgrown, hafter⟩ := s.exists_grown hs t
  refine ⟨answer, w.putGrown number s after, ?_, ?_⟩
  · rw [Workspace.extreme, SettledStore.extreme, hextreme, Checked.ok_bind]
    dsimp only
    rw [hgrown]
    rfl
  rw [Request.event?, hnumber]
  dsimp only [Option.bind_eq_bind, Option.bind_some]
  rw [hextreme]
  match hf : s.store.findHeap? order group target, answer with
  | none, .ok found =>
    rw [hf] at ht
    obtain ⟨ht, hshape, hb, added, hne, hdesc⟩ := ht
    exact hw.grown hnumber ht hshape hdesc hne hb hafter
  | none, .error err =>
    rw [hf] at ht
    exact hw.kept hnumber (hafter.trans ht)
  | some slot, answer =>
    rw [hf] at ht
    exact hw.kept hnumber (hafter.trans ht)

theorem change {ρ : Type} {handling : Handling ρ} (ha : handling.Allowed s.store) :
    ∃ answer t, handling.perform s.store = .ok (answer, t) ∧
      (w.put number { s with store := t }).Recorded log := by
  obtain ⟨hs, hb, hbuilt⟩ := hw.stores number s hnumber
  obtain ⟨answer, t, hperform, ht, hdesc⟩ := Handling.perform_spec hs ha
  have hshape : t.shape = s.store.shape := ht.shape
  exact ⟨answer, t, hperform,
    hw.put ht.invariant (by rw [hshape, hdesc]; exact hb) (by rw [hshape]; exact hbuilt)⟩

end Recorded

end Workspace

namespace Request

open Workspace

variable {w : Workspace} {log : List Event}

/-- A request is served, and the registry goes on with what comes of it. -/
theorem serve_spec (hw : w.Recorded log) {request : Request} (ha : request.Allowed w) :
    ∃ w', request.serve w = .ok w' ∧ w'.Recorded ((request.event? w).toList ++ log) := by
  cases request with
  | create number shape layout =>
    rw [serve, event?, w.create_eq]
    cases hc : Store.create shape layout with
    | error err => exact ⟨w, rfl, hw⟩
    | ok t => exact ⟨_, rfl, hw.built hc⟩
  | build number shape plan =>
    rw [serve, event?, w.build_eq]
    cases hc : plan.create shape with
    | error err => exact ⟨w, rfl, hw⟩
    | ok t =>
      obtain ⟨layout, _, hc⟩ := Checked.bind_eq_ok.1 hc
      exact ⟨_, rfl, hw.built hc⟩
  | addIndex number d =>
    rw [serve]
    cases hnumber : w.store? number with
    | none => exact ⟨w, rfl, by rw [event?, hnumber]; exact hw⟩
    | some s =>
      obtain ⟨answer, w', hadd, hw'⟩ := hw.addIndex hnumber d
      exact ⟨w', by simp [hadd], hw'⟩
  | extreme number order probe group target =>
    rw [serve]
    cases hnumber : w.store? number with
    | none => exact ⟨w, rfl, by rw [event?, hnumber]; exact hw⟩
    | some s =>
      obtain ⟨answer, w', hextreme, hw'⟩ := hw.extreme hnumber (ha s hnumber) order group target
      exact ⟨w', by simp [hextreme], hw'⟩
  | change number handling =>
    rw [serve]
    cases hnumber : w.store? number with
    | none => exact ⟨w, rfl, hw⟩
    | some s =>
      obtain ⟨answer, t, hperform, hw'⟩ := hw.change hnumber (ha s hnumber)
      exact ⟨_, by simp [hperform], hw'⟩

theorem serveAll_spec (hw : w.Recorded log) {requests : List Request}
    (ha : Admissible requests w) :
    ∃ w' log', serveAll requests w log = .ok (w', log') ∧ w'.Recorded log' := by
  induction requests generalizing w log with
  | nil => exact ⟨w, log, rfl, hw⟩
  | cons request rest ih =>
    obtain ⟨hallowed, hrest⟩ := ha
    obtain ⟨w', hserve, hw'⟩ := serve_spec hw hallowed
    obtain ⟨w'', log', hall, hw''⟩ := ih hw' (hrest w' hserve)
    exact ⟨w'', log', by rw [serveAll, hserve, Checked.ok_bind]; exact hall, hw''⟩

theorem named?_of_built {request : Request} {shape : Shape} {layout : List Descriptor}
    (h : request.event? w = some (.built shape layout)) : request.named? = some shape := by
  have hbuilt {given : Shape} {descriptors : List Descriptor}
      (hcreate : (Store.create given descriptors).toOption.map .ofBuilt =
        some (Event.built shape layout)) : some given = some shape := by
    cases hc : Store.create given descriptors with
    | error err =>
      rw [hc] at hcreate
      cases hcreate
    | ok t =>
      rw [hc] at hcreate
      obtain ⟨rfl, -⟩ := Event.built.inj (Option.some.inj hcreate)
      rw [(Store.create_spec hc).2.1]
  cases request with
  | create number given descriptors => exact hbuilt h
  | build number given plan =>
    rw [event?, LayoutPlan.create] at h
    cases hplan : plan.descriptors with
    | error err =>
      rw [hplan] at h
      cases h
    | ok descriptors =>
      rw [hplan] at h
      exact hbuilt h
  | addIndex number d =>
    obtain ⟨s, -, h⟩ := Option.bind_eq_some_iff.1 h
    split at h <;> cases h
  | extreme number order probe group target =>
    obtain ⟨s, -, h⟩ := Option.bind_eq_some_iff.1 h
    dsimp only at h
    split at h <;> cases h
  | change number handling => cases h

theorem named?_of_serveAll {requests : List Request} {w' : Workspace} {log' : List Event}
    {shape : Shape} {layout : List Descriptor} (hall : serveAll requests w log = .ok (w', log'))
    (hmem : .built shape layout ∈ log') :
    .built shape layout ∈ log ∨ ∃ request ∈ requests, request.named? = some shape := by
  induction requests generalizing w log with
  | nil =>
    obtain ⟨rfl, rfl⟩ := Prod.mk.inj (Except.ok.inj hall)
    exact .inl hmem
  | cons request rest ih =>
    obtain ⟨next, -, hall⟩ := Checked.bind_eq_ok.1 hall
    obtain hnow | ⟨later, hlater, hname⟩ := ih hall
    · obtain hevent | hold := List.mem_append.1 hnow
      · exact .inr ⟨request, List.mem_cons_self, named?_of_built (Option.mem_toList.1 hevent)⟩
      · exact .inl hold
    · exact .inr ⟨later, List.mem_cons_of_mem _ hlater, hname⟩

end Request

namespace Workspace

variable {w : Workspace} {log : List Event} {shape : Shape}

namespace Recorded

variable (hw : w.Recorded log) (hfew : w.registry.shapes.length ≤ UInt32.size)
include hw hfew

/-- A shape has a layout exactly if some store was built for it. -/
theorem layout?_eq_none_iff :
    w.registry.layout? shape = none ↔ ∀ layout, .built shape layout ∉ log := by
  rw [hw.layouts hfew, Event.last?, Option.map_eq_none_iff, List.find?_eq_none]
  constructor
  · intro h layout hmem
    exact h _ hmem (by simp [Event.shape])
  · intro h event hevent hshape
    obtain rfl : event.shape = shape := by simpa using hshape
    obtain ⟨_, layout, hmem⟩ := hw.events event hevent
    exact h layout hmem

/-- A plan like the layout of a shape can be built, whatever number the store is to get. -/
theorem build_planLike {plan : LayoutPlan} (hplan : w.planLike shape = .ok plan) (number : Nat) :
    ∃ w' s, w.build number shape plan = .ok w' ∧ w'.store? number = some s ∧
      s.store.shape = shape ∧ w.registry.layout? shape = some s.store.descriptors := by
  rw [planLike] at hplan
  cases hlayout : w.registry.layout? shape with
  | none =>
    rw [hlayout] at hplan
    cases hplan
  | some layout =>
    rw [hlayout] at hplan
    obtain rfl := Except.ok.inj hplan
    have hlast : Event.last? shape log = some layout := by rw [← hw.layouts hfew, hlayout]
    obtain ⟨event, hfind, rfl⟩ := Option.map_eq_some_iff.1 hlast
    obtain rfl : event.shape = shape := by simpa using List.find?_some hfind
    obtain ⟨⟨t, hc⟩, _⟩ := hw.events event (List.mem_of_find?_eq_some hfind)
    obtain ⟨_, hshape, hdesc, _⟩ := Store.create_spec hc
    have hplan : (LayoutPlan.ofLayout event.layout).create event.shape = .ok t := by
      cases hds : event.layout with
      | nil =>
        rw [hds] at hc
        cases hc
      | cons primary secondary => rwa [hds] at hc
    refine ⟨_, .ofStore t, by rw [build_eq, hplan]; rfl, ?_, hshape, congrArg some hdesc.symm⟩
    exact (store?_put w number number _).trans (if_pos rfl)

end Recorded

/-- As long as there are ids for all signatures, and whatever requests are served or refused, the
registry has for every shape the layout of the last store that was built for it or took an index; a
plan like it fails exactly if none was built, and otherwise builds a store with this layout. -/
theorem layouts_rebuild {requests : List Request} (ha : Request.Admissible requests .empty)
    (hfew : (Request.signatures requests).dedup.length < UInt32.size) :
    ∃ w log, Request.serveAll requests .empty [] = .ok (w, log) ∧ ∀ shape,
      w.registry.layout? shape = Event.last? shape log ∧
      ((∃ err, w.planLike shape = .error err) ↔ ∀ layout, .built shape layout ∉ log) ∧
      ∀ plan, w.planLike shape = .ok plan → ∀ number, ∃ w' s,
        w.build number shape plan = .ok w' ∧ w'.store? number = some s ∧
          s.store.shape = shape ∧ w.registry.layout? shape = some s.store.descriptors := by
  obtain ⟨w, log, hall, hw⟩ := Request.serveAll_spec recorded_empty ha
  have hnamed : w.registry.shapes ⊆ requests.filterMap Request.named? := by
    intro shape hshape
    obtain ⟨layout, hbuilt⟩ := hw.registered shape hshape
    obtain hnone | ⟨request, hrequest, hname⟩ := Request.named?_of_serveAll hall hbuilt
    · cases hnone
    · exact List.mem_filterMap.2 ⟨request, hrequest, hname⟩
  have hids := (hw.consistent.length_shapes_le hnamed).trans hfew.le
  refine ⟨w, log, hall, fun shape => ⟨hw.layouts hids shape, ?_, fun plan hplan number =>
    hw.build_planLike hids hplan number⟩⟩
  rw [← hw.layout?_eq_none_iff hids, planLike]
  cases w.registry.layout? shape <;> simp

/-- A store whose second entry keeps a unique index from being added, but not a heap. -/
def sampleRequests : List Request :=
  [.create 0 ⟨[.int, .int]⟩ [.ofForm (.hash [1] true)],
    .change 0 (.insert (Store.samplePair 1 30) : Handling Unit),
    .change 0 (.insert (Store.samplePair 2 30) : Handling Unit),
    .addIndex 0 (.ofForm (.tree [2] true)),
    .extreme 0 .ascending (Store.samplePair 1 0) [1] 2,
    .create 1 ⟨[.int, .int]⟩ []]

def sampleGrown : List Descriptor :=
  [.ofForm (.hash [1] true), ⟨.heap .ascending [1] 2, some 0⟩]

theorem admissible_sample : Request.Admissible sampleRequests .empty := by
  refine ⟨trivial, fun w hw => ?_⟩
  obtain rfl := Except.ok.inj hw
  refine ⟨fun s hs => ?_, fun w hw => ?_⟩
  · obtain rfl := Option.some.inj hs
    exact ⟨rfl, by decide⟩
  obtain rfl := Except.ok.inj hw
  refine ⟨fun s hs => ?_, fun w hw => ?_⟩
  · obtain rfl := Option.some.inj hs
    exact ⟨rfl, by decide⟩
  obtain rfl := Except.ok.inj hw
  refine ⟨trivial, fun w hw => ?_⟩
  obtain rfl := Except.ok.inj hw
  refine ⟨fun s hs => ?_, fun w hw => ⟨trivial, fun _ _ => trivial⟩⟩
  obtain rfl := Option.some.inj hs
  exact ⟨rfl, rfl⟩

/-- A refused index and a store that is refused leave no trace in the log, and a plan like the layout
that it ends with builds a store with the heap. -/
theorem layouts_rebuild_after_refusals : Request.Admissible sampleRequests .empty ∧
    (Request.signatures sampleRequests).dedup.length < UInt32.size ∧
    ∃ w log, Request.serveAll sampleRequests .empty [] = .ok (w, log) ∧
      log = [.grown ⟨[.int, .int]⟩ sampleGrown, .built ⟨[.int, .int]⟩ [.ofForm (.hash [1] true)]] ∧
      w.registry.layout? ⟨[.int, .int]⟩ = some sampleGrown ∧
      (∃ plan w' s, w.planLike ⟨[.int, .int]⟩ = .ok plan ∧
        w.build 2 ⟨[.int, .int]⟩ plan = .ok w' ∧ w'.store? 2 = some s ∧
        s.store.shape = ⟨[.int, .int]⟩ ∧ s.store.descriptors = sampleGrown) ∧
      ∃ err, w.planLike ⟨[.str]⟩ = .error err := by
  have hfew : (Request.signatures sampleRequests).dedup.length < UInt32.size := by decide
  obtain ⟨w, log, hall, hshapes⟩ := layouts_rebuild admissible_sample hfew
  have hlog : log = [.grown ⟨[.int, .int]⟩ sampleGrown,
      .built ⟨[.int, .int]⟩ [.ofForm (.hash [1] true)]] :=
    (Prod.mk.inj (Except.ok.inj hall)).2.symm
  obtain ⟨hlast, -, hbuild⟩ := hshapes ⟨[.int, .int]⟩
  obtain ⟨-, hnone, -⟩ := hshapes ⟨[.str]⟩
  have hlayout : w.registry.layout? ⟨[.int, .int]⟩ = some sampleGrown := by
    rw [hlast, hlog]
    rfl
  have hplan : w.planLike ⟨[.int, .int]⟩ = .ok (.ofLayout sampleGrown) := by
    rw [planLike, hlayout]
  obtain ⟨w', s, hbuilt, hstore, hshape, hdesc⟩ := hbuild _ hplan 2
  have hsame : s.store.descriptors = sampleGrown := Option.some.inj (hdesc.symm.trans hlayout)
  refine ⟨admissible_sample, hfew, w, log, hall, hlog, hlayout,
    ⟨_, w', s, hplan, hbuilt, hstore, hshape, hsame⟩, hnone.2 ?_⟩
  rw [hlog]
  simp

end Workspace
end IndexedStore
