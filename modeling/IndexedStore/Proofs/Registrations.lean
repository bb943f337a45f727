import IndexedStore.Proofs.KeyFields
import IndexedStore.Registry
import Mathlib.Data.List.Dedup
import Mathlib.Data.List.Perm.Subperm
import Mathlib.Data.Set.List

/-!
# Registrations

A registry hands out shapes and projections, and keeps what it has handed out. As long as there are
ids for all shapes, this cannot be seen: shapes are the same exactly if they have the same fields, a
signature stands for its fields, and a projection is the one that would be built without a registry,
whatever was asked before.
-/
namespace IndexedStore

namespace FieldType

theorem ofCode?_eq_some_iff {c : Char} {t : FieldType} : ofCode? c = some t ↔ t.code = c :=
  ⟨code_of_ofCode?, fun h => h ▸ ofCode?_code t⟩

theorem mapM_ofCode?_eq_some_iff {codes : List Char} {fields : List FieldType} :
    codes.mapM ofCode? = some fields ↔ fields.map code = codes := by
  induction codes generalizing fields with
  | nil => simp [eq_comm]
  | cons c codes ih =>
    simp only [List.mapM_cons, Option.bind_eq_bind, Option.bind_eq_some_iff, Option.pure_def,
      ofCode?_eq_some_iff, ih, List.map_eq_cons_iff]
    constructor
    · rintro ⟨t, ht, rest, hrest, hfields⟩
      exact ⟨t, rest, (Option.some.inj hfields).symm, ht, hrest⟩
    · rintro ⟨t, rest, rfl, ht, hrest⟩
      exact ⟨t, ht, rest, hrest, rfl⟩

end FieldType

namespace Shape

variable {s : Shape} {signature : String}

theorem ofSignature?_eq_some_iff : ofSignature? signature = some s ↔ s.signature = signature := by
  obtain ⟨fields⟩ := s
  simp [ofSignature?, FieldType.mapM_ofCode?_eq_some_iff, Shape.signature, String.ext_iff]

theorem isSome_ofSignature?_iff :
    (ofSignature? signature).isSome = true ↔
      ∀ c ∈ signature.toList, ∃ t : FieldType, t.code = c := by
  have hrange : (∃ s : Shape, s.signature = signature) ↔
      ∃ fields : List FieldType, fields.map FieldType.code = signature.toList := by
    refine ⟨fun ⟨s, hs⟩ => ⟨s.fields, ?_⟩, fun ⟨fields, h⟩ => ⟨⟨fields⟩, ?_⟩⟩
    · rw [← hs, Shape.signature, String.toList_ofList]
    · rw [Shape.signature, h, String.ofList_toList]
  rw [Option.isSome_iff_exists]
  simp only [ofSignature?_eq_some_iff, hrange]
  exact Set.ext_iff.1 (Set.range_list_map FieldType.code) signature.toList

theorem signature_injective : Function.Injective Shape.signature := fun _ _ h =>
  Option.some.inj ((ofSignature?_eq_some_iff.2 rfl).symm.trans (ofSignature?_eq_some_iff.2 h.symm))

end Shape

namespace Projection

variable {shape : Shape} {π : Projection}

theorem onPositions_eq_ok_iff {positions : List Nat} {comparison : Comparison} :
    onPositions shape positions comparison = .ok π ↔
      ((∀ p ∈ positions, 0 < p ∧ p ≤ shape.arity) ∧ positions.Nodup) ∧ π = ⟨shape,
        (if positions.isEmpty then shape.positions else positions).map (· - 1), comparison⟩ := by
  constructor
  · intro h
    rw [onPositions] at h
    obtain ⟨⟨⟩, hcheck, hπ⟩ := Checked.bind_eq_ok.1 h
    refine ⟨?_, (Except.ok.inj hπ).symm⟩
    obtain ⟨hin, hnodup, -⟩ := checkPositions_eq_ok_iff.1 hcheck
    cases positions with
    | nil => simp
    | cons p rest => exact ⟨hin, hnodup⟩
  · rintro ⟨⟨hin, hnodup⟩, rfl⟩
    obtain ⟨π, hπ⟩ := exists_onPositions comparison hin hnodup
    rw [hπ]
    rw [onPositions] at hπ
    obtain ⟨⟨⟩, -, hπ⟩ := Checked.bind_eq_ok.1 hπ
    exact hπ.symm

theorem exists_onPositions_eq_error_iff {positions : List Nat} {comparison : Comparison} :
    (∃ error, onPositions shape positions comparison = .error error) ↔
      ¬ ((∀ p ∈ positions, 0 < p ∧ p ≤ shape.arity) ∧ positions.Nodup) := by
  cases h : onPositions shape positions comparison with
  | error error =>
    refine iff_of_true ⟨error, rfl⟩ fun ⟨hin, hnodup⟩ => ?_
    obtain ⟨π, hπ⟩ := exists_onPositions comparison hin hnodup
    cases h.symm.trans hπ
  | ok π => exact iff_of_false (by rintro ⟨_, ⟨⟩⟩) (not_not_intro (onPositions_eq_ok_iff.1 h).1)

end Projection

namespace Registry

/-! ## Requests to a registry -/

inductive Query where
  | register (fields : List FieldType)
  | parse (signature : String)
  | project (shape : RegisteredShape) (positions : List Nat) (comparison : Comparison)
  deriving DecidableEq, Repr

inductive Answer where
  | registered (shape : RegisteredShape)
  | parsed (shape? : Option RegisteredShape)
  | projected (result : Except Error Projection)

namespace Query

def named? : Query → Option Shape
  | register fields => some ⟨fields⟩
  | parse signature => Shape.ofSignature? signature
  | project _ _ _ => none

def subject? : Query → Option RegisteredShape
  | register _ | parse _ => none
  | project shape _ _ => some shape

end Query

def Answer.shape? : Answer → Option RegisteredShape
  | registered shape => some shape
  | parsed shape? => shape?
  | projected _ => none

def serve (r : Registry) : Query → Answer × Registry
  | .register fields =>
    let (shape, r) := r.register fields
    (.registered shape, r)
  | .parse signature =>
    let (shape?, r) := r.parse signature
    (.parsed shape?, r)
  | .project shape positions comparison =>
    let (result, r) := r.projectionOf shape positions comparison
    (.projected result, r)

def serveAll (r : Registry) : List Query → List (Query × Answer) × Registry
  | [] => ([], r)
  | query :: rest =>
    let (answer, next) := r.serve query
    let (exchanges, last) := next.serveAll rest
    ((query, answer) :: exchanges, last)

def handedOut (exchanges : List (Query × Answer)) : List RegisteredShape :=
  exchanges.filterMap fun exchange => exchange.2.shape?

def signatures (queries : List Query) : List String :=
  (queries.filterMap Query.named?).map Shape.signature

/-- A projection is only asked of a shape that was handed out before. -/
def Admissible (r : Registry) (known : List RegisteredShape) : List Query → Prop
  | [] => True
  | query :: rest =>
    (∀ s ∈ query.subject?, s ∈ known) ∧
      (r.serve query).2.Admissible ((r.serve query).1.shape?.toList ++ known) rest

instance decidableAdmissible : ∀ (r : Registry) (known : List RegisteredShape)
    (queries : List Query), Decidable (r.Admissible known queries)
  | _, _, [] => inferInstanceAs (Decidable True)
  | r, known, query :: rest =>
    have := decidableAdmissible (r.serve query).2 ((r.serve query).1.shape?.toList ++ known) rest
    inferInstanceAs (Decidable ((∀ s ∈ query.subject?, s ∈ known) ∧
      (r.serve query).2.Admissible ((r.serve query).1.shape?.toList ++ known) rest))

/-! ## What a registry keeps -/

/-- A registered shape has the place of its fields for an id. -/
def Issued (r : Registry) (s : RegisteredShape) : Prop :=
  ∃ number, r.shapes[number]? = some s.shape ∧ s.id = .ofNat number

/-- No shape has two numbers, and projections are kept under the shape, the positions and the
comparison that they were made of. -/
structure Consistent (r : Registry) : Prop where
  apart : r.shapes.Nodup
  made : ∀ ⦃key π⦄, (key, π) ∈ r.projections → r.Issued ⟨key.shape, π.shape⟩ ∧
    π = ⟨π.shape, key.positions.map (· - 1), key.comparison⟩

variable {r next : Registry} {s t : RegisteredShape} {shape : Shape}

theorem consistent_empty : empty.Consistent := ⟨List.nodup_nil, by simp [empty]⟩

theorem Issued.mono (h : r.Issued s) (hkept : r.shapes <+: next.shapes) : next.Issued s := by
  obtain ⟨number, hshape, hid⟩ := h
  obtain ⟨hlt, hget⟩ := List.getElem?_eq_some_iff.1 hshape
  exact ⟨number, hget ▸ List.prefix_iff_getElem?.1 hkept number hlt, hid⟩

/-- While there are ids for all shapes, shapes with one id are one shape. -/
theorem Issued.same_iff (hr : r.Consistent) (hfew : r.shapes.length ≤ UInt32.size)
    (hs : r.Issued s) (ht : r.Issued t) : s.same t = true ↔ s.shape = t.shape := by
  obtain ⟨i, hi, hsid⟩ := hs
  obtain ⟨j, hj, htid⟩ := ht
  have hilt := (List.getElem?_eq_some_iff.1 hi).1
  have hjlt := (List.getElem?_eq_some_iff.1 hj).1
  have hids : s.same t = true ↔ i = j := by
    rw [RegisteredShape.same, beq_iff_eq, hsid, htid, ← UInt32.toNat_inj,
      UInt32.toNat_ofNat_of_lt' (by omega), UInt32.toNat_ofNat_of_lt' (by omega)]
  rw [hids, ← List.getElem?_inj hilt hr.apart, hi, hj, Option.some.injEq]

theorem Issued.eq (hr : r.Consistent) (hfew : r.shapes.length ≤ UInt32.size) (hs : r.Issued s)
    (ht : r.Issued t) (h : s.shape = t.shape) : s = t := by
  have hid : s.id = t.id := eq_of_beq ((same_iff hr hfew hs ht).2 h)
  obtain ⟨_, _⟩ := s
  obtain ⟨_, _⟩ := t
  congr

theorem getElem?_of_idxOf? {shapes : List Shape} {number : Nat}
    (h : shapes.idxOf? shape = some number) : shapes[number]? = some shape := by
  obtain ⟨hlt, hshape, _⟩ := List.findIdx?_eq_some_iff_getElem.1 h
  rw [List.getElem?_eq_getElem hlt, eq_of_beq hshape]

theorem register_cases (r : Registry) (fields : List FieldType) :
    (r.register fields).2 = r ∧ ⟨fields⟩ ∈ r.shapes ∨
      (r.register fields).2 = { r with shapes := r.shapes ++ [⟨fields⟩] } ∧
        ⟨fields⟩ ∉ r.shapes := by
  rw [register, intern]
  cases hid : r.shapes.idxOf? ⟨fields⟩ with
  | some id => exact .inl ⟨rfl, List.mem_of_getElem? (getElem?_of_idxOf? hid)⟩
  | none => exact .inr ⟨rfl, List.idxOf?_eq_none_iff.1 hid⟩

theorem issued_of_registered? (h : r.registered? shape = some s) : r.Issued s ∧ s.shape = shape := by
  obtain ⟨number, hnumber, rfl⟩ := Option.map_eq_some_iff.1 h
  exact ⟨⟨number, getElem?_of_idxOf? hnumber, rfl⟩, rfl⟩

/-- A shape is registered from then on under the id handed out; other shapes keep theirs. -/
theorem registered?_register (r : Registry) (fields : List FieldType) (shape : Shape) :
    (r.register fields).2.registered? shape =
      if shape = ⟨fields⟩ then some (r.register fields).1 else r.registered? shape := by
  by_cases h : shape = ⟨fields⟩
  · subst h
    rw [if_pos rfl, register, intern]
    cases hnumber : r.shapes.idxOf? ⟨fields⟩ with
    | some number => simp [registered?, hnumber]
    | none =>
      rw [List.idxOf?] at hnumber
      simp [registered?, List.idxOf?, List.findIdx?_append, hnumber]
  · rw [if_neg h]
    obtain ⟨hsame, -⟩ | ⟨hnext, -⟩ := register_cases r fields
    · rw [hsame]
    · have hother : ((⟨fields⟩ : Shape) == shape) = false := by simpa using Ne.symm h
      rw [hnext]
      simp [registered?, List.idxOf?, List.findIdx?_append, hother]

theorem shape_register (r : Registry) (fields : List FieldType) :
    (r.register fields).1.shape = ⟨fields⟩ := rfl

theorem layouts_register (r : Registry) (fields : List FieldType) :
    (r.register fields).2.layouts = r.layouts := by
  obtain ⟨h, -⟩ | ⟨h, -⟩ := register_cases r fields <;> rw [h]

theorem issued_register (r : Registry) (fields : List FieldType) :
    (r.register fields).2.Issued (r.register fields).1 :=
  (issued_of_registered? ((registered?_register r fields ⟨fields⟩).trans (if_pos rfl))).1

theorem Consistent.register (hr : r.Consistent) (fields : List FieldType) :
    (r.register fields).2.Consistent := by
  obtain ⟨h, -⟩ | ⟨h, hnew⟩ := register_cases r fields
  · rw [h]
    exact hr
  · rw [h]
    refine ⟨List.nodup_append.2 ⟨hr.apart, List.nodup_singleton _, ?_⟩, fun key π hrow => ?_⟩
    · rintro a ha b hb rfl
      exact hnew (List.mem_singleton.1 hb ▸ ha)
    · obtain ⟨hissued, hmade⟩ := hr.made hrow
      exact ⟨hissued.mono (List.prefix_append _ _), hmade⟩

/-- The projection that is kept is the one that would be made. -/
theorem projectionOf_eq (hr : r.Consistent) (hfew : r.shapes.length ≤ UInt32.size)
    (hs : r.Issued s) (positions : List Nat) (comparison : Comparison) :
    (r.projectionOf s positions comparison).1 =
      Projection.onPositions s.shape positions comparison := by
  rw [projectionOf]
  cases hfresh : Projection.onPositions s.shape positions comparison with
  | error error => rfl
  | ok fresh =>
    dsimp only
    cases hknown : r.projections.lookup ⟨s.id, fresh.positions, comparison⟩ with
    | none => rfl
    | some known =>
      obtain ⟨before, after, hrows, -⟩ := List.lookup_eq_some_iff.1 hknown
      obtain ⟨hissued, hmade⟩ := hr.made (hrows ▸ List.mem_append_right _ List.mem_cons_self)
      have hshape : known.shape = s.shape :=
        (Issued.same_iff hr hfew hissued hs).1 (by simp [RegisteredShape.same])
      have hfresh := (Projection.onPositions_eq_ok_iff.1 hfresh).2
      have hsame : known = fresh := by
        rw [hmade, hshape, hfresh]
        simp [Projection.positions]
      rw [hsame]

theorem Consistent.projectionOf (hr : r.Consistent) (hs : r.Issued s) (positions : List Nat)
    (comparison : Comparison) : (r.projectionOf s positions comparison).2.Consistent := by
  rw [Registry.projectionOf]
  cases hfresh : Projection.onPositions s.shape positions comparison with
  | error error => exact hr
  | ok fresh =>
    dsimp only
    split
    · exact hr
    · obtain ⟨-, rfl⟩ := Projection.onPositions_eq_ok_iff.1 hfresh
      refine ⟨hr.apart, fun key π hrow => ?_⟩
      obtain hnew | hold := List.mem_cons.1 hrow
      · obtain ⟨rfl, rfl⟩ := Prod.ext_iff.1 hnew
        exact ⟨hs, by simp [Projection.positions]⟩
      · exact hr.made hold

theorem shapes_projectionOf (r : Registry) (s : RegisteredShape) (positions : List Nat)
    (comparison : Comparison) : (r.projectionOf s positions comparison).2.shapes = r.shapes := by
  rw [projectionOf]
  split
  · rfl
  · dsimp only
    split <;> rfl

/-! ## What the answers say -/

/-- An answer that could be given without a registry. -/
inductive Plain : Query → Answer → Prop
  | register {fields : List FieldType} {s : RegisteredShape} (h : s.shape = ⟨fields⟩) :
    Plain (.register fields) (.registered s)
  | parse {signature : String} {found : Option RegisteredShape}
    (h : found.map RegisteredShape.shape = Shape.ofSignature? signature) :
    Plain (.parse signature) (.parsed found)
  | project {s : RegisteredShape} {positions : List Nat} {comparison : Comparison} :
    Plain (.project s positions comparison)
      (.projected (Projection.onPositions s.shape positions comparison))

theorem shapes_serve (r : Registry) (query : Query) :
    r.shapes <+: (r.serve query).2.shapes ∧
      ∀ shape ∈ (r.serve query).2.shapes, shape ∈ r.shapes ∨ query.named? = some shape := by
  have hregister (fields : List FieldType) : r.shapes <+: (r.register fields).2.shapes ∧
      ∀ shape ∈ (r.register fields).2.shapes, shape ∈ r.shapes ∨ some ⟨fields⟩ = some shape := by
    obtain ⟨h, -⟩ | ⟨h, -⟩ := register_cases r fields
    · rw [h]
      exact ⟨List.prefix_rfl, fun _ => .inl⟩
    · rw [h]
      refine ⟨List.prefix_append _ _, fun shape hshape => ?_⟩
      exact (List.mem_append.1 hshape).imp id fun hnew => by rw [List.mem_singleton.1 hnew]
  cases query with
  | register fields => exact hregister fields
  | parse signature =>
    rw [serve, parse, Query.named?]
    cases Shape.ofSignature? signature with
    | none => exact ⟨List.prefix_rfl, fun _ => .inl⟩
    | some shape => exact hregister shape.fields
  | project s positions comparison =>
    rw [serve, shapes_projectionOf]
    exact ⟨List.prefix_rfl, fun _ => .inl⟩

theorem shapes_serveAll (r : Registry) (queries : List Query) :
    r.shapes <+: (r.serveAll queries).2.shapes ∧
      ∀ shape ∈ (r.serveAll queries).2.shapes,
        shape ∈ r.shapes ∨ ∃ query ∈ queries, query.named? = some shape := by
  induction queries generalizing r with
  | nil => exact ⟨List.prefix_rfl, fun _ => .inl⟩
  | cons query rest ih =>
    obtain ⟨hkept, hnamed⟩ := shapes_serve r query
    obtain ⟨ihkept, ihnamed⟩ := ih (r.serve query).2
    refine ⟨hkept.trans ihkept, fun shape hshape => ?_⟩
    obtain hnext | ⟨later, hlater, hname⟩ := ihnamed shape hshape
    · exact (hnamed shape hnext).imp id fun hname => ⟨query, List.mem_cons_self, hname⟩
    · exact .inr ⟨later, List.mem_cons_of_mem _ hlater, hname⟩

/-- What comes of a query about a shape that was handed out: the answer is one that could be given
without a registry, while there are ids for all shapes. -/
structure Served (r : Registry) (query : Query) (answer : Answer) (next : Registry) : Prop where
  consistent : next.Consistent
  issued : ∀ s ∈ answer.shape?, next.Issued s
  plain : r.shapes.length ≤ UInt32.size → Plain query answer

theorem serve_spec {query : Query} (hr : r.Consistent)
    (hsubject : ∀ s ∈ query.subject?, r.Issued s) :
    Served r query (r.serve query).1 (r.serve query).2 := by
  cases query with
  | register fields =>
    refine ⟨hr.register fields, fun s hs => ?_, fun _ => .register (shape_register r fields)⟩
    obtain rfl := Option.some.inj hs
    exact issued_register r fields
  | parse signature =>
    rw [serve, parse]
    cases hread : Shape.ofSignature? signature with
    | none => exact ⟨hr, by rintro s ⟨⟩, fun _ => .parse hread.symm⟩
    | some shape =>
      refine ⟨hr.register shape.fields, fun s hs => ?_, fun _ => .parse ?_⟩
      · obtain rfl := Option.some.inj hs
        exact issued_register r shape.fields
      · rw [hread, Option.map_some, shape_register]
  | project s positions comparison =>
    have hs : r.Issued s := hsubject s rfl
    refine ⟨hr.projectionOf hs positions comparison, by rintro s ⟨⟩, fun hfew => ?_⟩
    rw [serve]
    dsimp only
    rw [projectionOf_eq hr hfew hs]
    exact .project

theorem serveAll_spec {queries : List Query} {known : List RegisteredShape} (hr : r.Consistent)
    (hknown : ∀ s ∈ known, r.Issued s) (ha : r.Admissible known queries) :
    (r.serveAll queries).2.Consistent ∧
      (∀ s ∈ handedOut (r.serveAll queries).1, (r.serveAll queries).2.Issued s) ∧
      ((r.serveAll queries).2.shapes.length ≤ UInt32.size →
        ∀ exchange ∈ (r.serveAll queries).1, Plain exchange.1 exchange.2) := by
  induction queries generalizing r known with
  | nil => exact ⟨hr, by simp [serveAll, handedOut], by simp [serveAll]⟩
  | cons query rest ih =>
    obtain ⟨hsubject, ha⟩ := ha
    have hkept := (shapes_serve r query).1
    have hrest := (shapes_serveAll (r.serve query).2 rest).1
    have hstep : Served r query (r.serve query).1 (r.serve query).2 :=
      serve_spec hr fun s hs => hknown s (hsubject s hs)
    have hnext : ∀ s ∈ (r.serve query).1.shape?.toList ++ known, (r.serve query).2.Issued s := by
      intro s hs
      obtain hnew | hold := List.mem_append.1 hs
      · exact hstep.issued s (Option.mem_toList.1 hnew)
      · exact (hknown s hold).mono hkept
    obtain ⟨hlast, hissued, hplain⟩ := ih hstep.consistent hnext ha
    refine ⟨hlast, fun s hs => ?_, fun hfew => List.forall_mem_cons.2 ⟨?_, hplain hfew⟩⟩
    · obtain ⟨exchange, hmem, hshape⟩ := List.mem_filterMap.1 hs
      obtain rfl | hmem := List.mem_cons.1 hmem
      · exact (hstep.issued s hshape).mono hrest
      · exact hissued s (List.mem_filterMap.2 ⟨exchange, hmem, hshape⟩)
    · exact hstep.plain ((hkept.trans hrest).length_le.trans hfew)

/-- Ids do not run out before signatures do. -/
theorem Consistent.length_shapes_le {named : List Shape} (hr : r.Consistent)
    (hnamed : r.shapes ⊆ named) :
    r.shapes.length ≤ (named.map Shape.signature).dedup.length := by
  have hsub : r.shapes.map Shape.signature ⊆ (named.map Shape.signature).dedup := by
    intro signature hmem
    obtain ⟨shape, hshape, rfl⟩ := List.mem_map.1 hmem
    exact List.mem_dedup.2 (List.mem_map_of_mem (hnamed hshape))
  have hnodup := hr.apart.map Shape.signature_injective
  simpa using (List.Nodup.subperm hnodup hsub).length_le

/-- What an answer says, if `issued` are the shapes that are handed out at any time. -/
inductive Answered (issued : List RegisteredShape) : Query → Answer → Prop
  | register {fields : List FieldType} {s : RegisteredShape} (asked : s.shape.fields = fields) :
    Answered issued (.register fields) (.registered s)
  | parse {signature : String} {found : Option RegisteredShape}
    (read : found.isSome = true ↔ ∀ c ∈ signature.toList, ∃ t : FieldType, t.code = c)
    (written : ∀ s ∈ found, s.shape.signature = signature)
    (back : ∀ s ∈ issued, s.shape.signature = signature → found = some s) :
    Answered issued (.parse signature) (.parsed found)
  | project {s : RegisteredShape} {positions : List Nat} {comparison : Comparison}
    {result : Except Error Projection}
    (refused : (∃ error, result = .error error) ↔
      (∃ p ∈ positions, p = 0 ∨ s.shape.arity < p) ∨ ¬ positions.Nodup)
    (taken : ∀ π, result = .ok π → π.shape = s.shape ∧ π.comparison = comparison ∧
      ∀ e : Entry, e.Conforms s.shape → π.project e =
        .ok ((if positions.isEmpty then s.shape.positions else positions).map e.field)) :
    Answered issued (.project s positions comparison) (.projected result)

theorem Plain.answered {issued : List RegisteredShape} {query : Query} {answer : Answer}
    (h : Plain query answer)
    (hback : ∀ s ∈ issued, ∀ t ∈ answer.shape?, s.shape = t.shape → t = s) :
    Answered issued query answer := by
  cases h with
  | register h => exact .register (congrArg Shape.fields h)
  | @parse signature found h =>
    refine .parse ?_ (fun s hs => ?_) fun s hs hsig => ?_
    · rw [← Shape.isSome_ofSignature?_iff, ← h, Option.isSome_map]
    · rw [← Shape.ofSignature?_eq_some_iff, ← h, hs]
      rfl
    · rw [Shape.ofSignature?_eq_some_iff.2 hsig, Option.map_eq_some_iff] at h
      obtain ⟨t, rfl, hshape⟩ := h
      exact congrArg some (hback s hs t rfl hshape.symm)
  | @project s positions comparison =>
    refine .project ?_ fun π hπ => ?_
    · rw [Projection.exists_onPositions_eq_error_iff, not_and_or]
      push Not
      simp only [Nat.pos_iff_ne_zero, imp_iff_not_or, not_not]
    · obtain ⟨hin, hoffsets⟩ := Projection.onPositions_spec hπ
      obtain ⟨-, rfl⟩ := Projection.onPositions_eq_ok_iff.1 hπ
      refine ⟨rfl, rfl, fun e he => ?_⟩
      rw [Projection.project_eq (hin.fits he), Projection.keyOf, hoffsets, List.map_map]
      rfl

/-- A registry cannot be seen in its answers while there are ids for all signatures: the shapes it
hands out are the same exactly if they have the same fields, and every answer says what it would
without the queries before. -/
theorem registry_transparent {queries : List Query} (ha : empty.Admissible [] queries)
    (hfew : (signatures queries).dedup.length < UInt32.size) :
    (∀ s ∈ handedOut (empty.serveAll queries).1, ∀ t ∈ handedOut (empty.serveAll queries).1,
      s.same t = true ↔ s.shape.fields = t.shape.fields) ∧
    ∀ exchange ∈ (empty.serveAll queries).1,
      Answered (handedOut (empty.serveAll queries).1) exchange.1 exchange.2 := by
  obtain ⟨hlast, hissued, hplain⟩ := serveAll_spec consistent_empty (by simp) ha
  have hnamed : (empty.serveAll queries).2.shapes ⊆ queries.filterMap Query.named? := by
    intro shape hshape
    obtain hold | ⟨query, hquery, hname⟩ := (shapes_serveAll empty queries).2 shape hshape
    · cases hold
    · exact List.mem_filterMap.2 ⟨query, hquery, hname⟩
  have hids := (hlast.length_shapes_le hnamed).trans hfew.le
  refine ⟨fun s hs t ht => ?_, fun exchange hmem => ?_⟩
  · rw [Issued.same_iff hlast hids (hissued s hs) (hissued t ht), Shape.mk.injEq]
  · refine (hplain hids exchange hmem).answered fun s hs t ht hshape => ?_
    have ht := hissued t (List.mem_filterMap.2 ⟨exchange, hmem, ht⟩)
    exact ht.eq hlast hids (hissued s hs) hshape.symm

def sampleQueries : List Query :=
  [.register [.int, .str], .parse "S", .project ⟨0, ⟨[.int, .str]⟩⟩ [2] .equality,
    .parse "IS", .project ⟨1, ⟨[.str]⟩⟩ [] .equality, .parse "I?",
    .project ⟨0, ⟨[.int, .str]⟩⟩ [2] .equality, .project ⟨1, ⟨[.str]⟩⟩ [2] .equality]

theorem transparent_of_sample : empty.Admissible [] sampleQueries ∧
    (signatures sampleQueries).dedup.length < UInt32.size ∧
    (∀ s ∈ handedOut (empty.serveAll sampleQueries).1,
      ∀ t ∈ handedOut (empty.serveAll sampleQueries).1,
        s.same t = true ↔ s.shape.fields = t.shape.fields) ∧
    ∀ exchange ∈ (empty.serveAll sampleQueries).1,
      Answered (handedOut (empty.serveAll sampleQueries).1) exchange.1 exchange.2 := by
  have ha : empty.Admissible [] sampleQueries := by decide
  have hfew : (signatures sampleQueries).dedup.length < UInt32.size := by decide
  exact ⟨ha, hfew, registry_transparent ha hfew⟩

end Registry
end IndexedStore
