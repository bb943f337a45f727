import Mathlib.Data.List.Forall2
import IndexedStore.Proofs.Descriptions
import IndexedStore.Store.Change

/-!
# Placing a handle in many indices

What became of each index when a handle was placed in some of them: on success every marked index
took the handle; on refusal one did not, and those before it took the handle and lost it again.
-/
namespace IndexedStore.Store

variable {source : Source} {h : Handle} {e : Entry} {slot : Nat} {marked : Marked}
  {placed : List Declared}

/-- An index took a handle if it is marked, and stayed as it was if not. -/
def Took (source : Source) (h : Handle) (e : Entry) (m : Bool × Declared) (d : Declared) : Prop :=
  d.descriptor = m.2.descriptor ∧
    if m.1 then m.2.index.add source h e = .ok (.ok d.index) else d.index = m.2.index

/-- An index stayed as it was, or took a handle and lost it again. -/
def Undid (source : Source) (h : Handle) (e : Entry) (m : Bool × Declared) (d : Declared) : Prop :=
  d.descriptor = m.2.descriptor ∧ (d.index = m.2.index ∨ m.1 = true ∧
    ∃ j, m.2.index.add source h e = .ok (.ok j) ∧ j.remove h e = .ok d.index)

theorem undid_refl : List.Forall₂ (Undid source h e) marked (marked.map Prod.snd) :=
  List.forall₂_map_right_iff.2 (List.forall₂_same.2 fun _ _ => ⟨rfl, .inl rfl⟩)

def Places (source : Source) (h : Handle) (e : Entry) (marked : Marked) :
    Option Error × List Declared → Prop
  | (none, placed) => List.Forall₂ (Took source h e) marked placed
  | (some _, placed) => List.Forall₂ (Undid source h e) marked placed ∧
      ∃ m ∈ marked, m.1 = true ∧ ∃ why, m.2.index.add source h e = .ok (.error why)

structure Answers (source : Source) (h : Handle) (e : Entry) (d : Declared) : Prop where
  add : ∃ result, d.index.add source h e = .ok result ∧
    ∀ j, result = .ok j → ∃ k, j.remove h e = .ok k
  error : ∀ slot why, ∃ err, d.error slot e why = .ok err

/-- A placement in indices that answer either succeeds in all marked ones or is undone in all. -/
theorem place_spec (hm : ∀ m ∈ marked, m.1 = true → Answers source h e m.2) (slot : Nat) :
    ∃ result, place source h e slot marked = .ok result ∧ Places source h e marked result := by
  induction marked generalizing slot with
  | nil => exact ⟨(none, []), rfl, .nil⟩
  | cons m marked ih =>
    obtain ⟨⟨refusal, placed⟩, hplace, hplaces⟩ := ih (fun m hm' => hm m (by simp [hm'])) (slot + 1)
    obtain ⟨mark, d⟩ := m
    cases mark with
    | false =>
      refine ⟨(refusal, d :: placed), by rw [place, hplace]; rfl, ?_⟩
      cases refusal with
      | none => exact .cons ⟨rfl, rfl⟩ hplaces
      | some refusal =>
        obtain ⟨hundid, m, hmem, hrefused⟩ := hplaces
        exact ⟨.cons ⟨rfl, .inl rfl⟩ hundid, m, List.mem_cons_of_mem _ hmem, hrefused⟩
    | true =>
      obtain ⟨⟨result, hadd, hremove⟩, herror⟩ := hm _ List.mem_cons_self rfl
      cases result with
      | error why =>
        obtain ⟨err, herr⟩ := herror slot why
        refine ⟨(some err, d :: marked.map Prod.snd), ?_, .cons ⟨rfl, .inl rfl⟩ undid_refl, _,
          List.mem_cons_self, rfl, why, hadd⟩
        simp [place, hadd, herr]
      | ok j =>
        cases refusal with
        | none =>
          refine ⟨(none, { d with index := j } :: placed), ?_, .cons ⟨rfl, hadd⟩ hplaces⟩
          simp [place, hadd, hplace]
        | some refusal =>
          obtain ⟨k, hk⟩ := hremove j rfl
          obtain ⟨hundid, m, hmem, hrefused⟩ := hplaces
          refine ⟨(some refusal, { d with index := k } :: placed), ?_,
            .cons ⟨rfl, .inr ⟨rfl, j, hadd, hk⟩⟩ hundid, m, List.mem_cons_of_mem _ hmem, hrefused⟩
          simp [place, hadd, hplace, hk]

theorem update_undone {source : Source} (hh : source h = none) (e : Entry) :
    Function.update (Function.update source h (some e)) h none = source := by
  rw [Function.update_idem, ← hh, Function.update_eq_self]

section Sound

variable {shape : Shape} {after : Source} {m : Bool × Declared} {d : Declared}
  (hsource : source.Conforms shape) (hh : source h = none) (he : e.Conforms shape)
  (hs : ∀ k ≠ h, after k = source k)

include hsource hh he hs

theorem answers_of_sound (hd : d.Stands shape) (hi : d.index.Sound source) :
    Answers after h e d := by
  obtain ⟨result, hadd, hresult⟩ := hi.add hd.reads hsource hh he (hi.eqOn_handles hh hs)
  refine ⟨⟨result, hadd, ?_⟩, hd.exists_error he⟩
  rintro j rfl
  obtain ⟨_, hj, hb⟩ := hresult
  obtain ⟨k, hk, _⟩ := hj.remove (hd.reads.congr hb) he (Function.update_self _ _ _)
  exact ⟨k, hk⟩

theorem sound_of_add {j k : Index} (hr : j.Reads shape) (hi : j.Sound source)
    (hadd : j.add after h e = .ok (.ok k)) :
    k.Sound (Function.update source h (some e)) ∧ k.blank = j.blank := by
  obtain ⟨result, hadd', hresult⟩ := hi.add hr hsource hh he (hi.eqOn_handles hh hs)
  rw [hadd, Except.ok.injEq] at hadd'
  subst hadd'
  exact hresult.2

/-- An index that lost again what it took is sound for the source it was sound for. -/
theorem sound_of_undid (hu : Undid after h e m d) (hd : m.2.Stands shape)
    (hi : m.2.index.Sound source) : d.index.Sound source ∧ d.Stands shape := by
  obtain ⟨hdesc, hindex | ⟨_, j, hadd, hremove⟩⟩ := hu
  · exact ⟨hindex ▸ hi, hd.congr hdesc (by rw [hindex])⟩
  · obtain ⟨hj, hb⟩ := sound_of_add hsource hh he hs hd.reads hi hadd
    obtain ⟨k, hk, hsound, hkb⟩ :=
      hj.remove (hd.reads.congr hb) he (Function.update_self _ _ _)
    obtain rfl := Except.ok.inj (hremove.symm.trans hk)
    exact ⟨update_undone hh e ▸ hsound, hd.congr hdesc (hkb.trans hb)⟩

end Sound

end IndexedStore.Store
