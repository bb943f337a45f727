import IndexedStore.Proofs.Acceptance

/-!
# Changes of single entries

An insertion, an update or a deletion by handle answers for what the slab holds and for what the
indices permit. So stores with one slab answer alike and keep one slab, as long as one of them has
no more than the indices of the other and further ones that are not unique.
-/
namespace IndexedStore

inductive Handling (ρ : Type) where
  | insert (e : Entry)
  | update (h : Handle) (mutate : Entry → Checked (Entry × ρ))
  | delete (h : Handle)

inductive Handled (ρ : Type) where
  | inserted (answer : Except Error Handle)
  | updated (answer : Except Error (Option ρ))
  | deleted (removed : Option Entry)
  deriving DecidableEq

namespace Handling

variable {ρ : Type}

def perform : Handling ρ → Store → Checked (Handled ρ × Store)
  | insert e, s => do
    let (answer, s) ← s.insert e
    return (.inserted answer, s)
  | update h mutate, s => do
    let (answer, s) ← s.update h mutate
    return (.updated answer, s)
  | delete h, s => do
    let (removed, s) ← s.delete h
    return (.deleted removed, s)

def performAll : List (Handling ρ) → Store → Checked (List (Handled ρ) × Store)
  | [], s => return ([], s)
  | change :: rest, s => do
    let (answer, s) ← change.perform s
    let (answers, s) ← performAll rest s
    return (answer :: answers, s)

/-- What a change asks for: entries that are well-typed, mutations that answer for the entry at hand,
and a slot number for a new entry that no live one has. -/
def Allowed (s : Store) : Handling ρ → Prop
  | insert e => e.Typed ∧ s.size < UInt32.size
  | update h mutate => Store.Total (s.entry? h = some ·) mutate
  | delete _ => True

def Admissible : List (Handling ρ) → Store → Prop
  | [], _ => True
  | change :: rest, s => change.Allowed s ∧
      ∀ answer t, change.perform s = .ok (answer, t) → Admissible rest t

end Handling

namespace Handling

variable {s : Store} {ρ : Type} (hs : s.Invariant)
include hs

theorem perform_spec {change : Handling ρ} (ha : change.Allowed s) :
    ∃ answer t, change.perform s = .ok (answer, t) ∧ s.Keeps t ∧ t.descriptors = s.descriptors := by
  cases change with
  | insert e =>
    obtain ⟨answer, t, hinsert, ht, hshape, hdesc, _⟩ :=
      Store.insert_spec hs ha.1 (hs.slab.hasRoom ha.2)
    exact ⟨.inserted answer, t, by rw [perform, hinsert]; rfl, ⟨ht, hshape⟩, hdesc⟩
  | update h mutate =>
    obtain ⟨answer, t, hupdate, hkeeps, hdesc, _⟩ := Store.update_spec hs ha
    exact ⟨.updated answer, t, by rw [perform, hupdate]; rfl, hkeeps, hdesc⟩
  | delete h =>
    obtain ⟨t, hdelete, hkeeps, hdesc, _⟩ := Store.delete_spec hs h
    exact ⟨.deleted (s.source h), t, by rw [perform, hdelete]; rfl, hkeeps, hdesc⟩

theorem performAll_spec {changes : List (Handling ρ)} (ha : Admissible changes s) :
    ∃ answers t, performAll changes s = .ok (answers, t) ∧ s.Keeps t ∧
      t.descriptors = s.descriptors := by
  induction changes generalizing s with
  | nil => exact ⟨[], s, rfl, .refl hs, rfl⟩
  | cons change rest ih =>
    obtain ⟨hallowed, hrest⟩ := ha
    obtain ⟨answer, t, hperform, hkeeps, hdesc⟩ := perform_spec hs hallowed
    obtain ⟨answers, u, hall, hkeeps', hdesc'⟩ := ih hkeeps.invariant (hrest answer t hperform)
    exact ⟨answer :: answers, u, by simp [performAll, hperform, hall], hkeeps.trans hkeeps',
      hdesc'.trans hdesc⟩

end Handling

namespace Store

variable {s t : Store} {h : Handle} {e : Entry}

/-! ## What the slab becomes -/

theorem insert_slab (hshape : e.shape = s.shape) {answer : Except Error Handle}
    (hinsert : s.insert e = .ok (answer, t)) :
    ∃ h slab, s.slab.insert e = .ok (h, slab) ∧ (answer = .ok h ∧ t.slab = slab ∨
      ∃ err removed, answer = .error err ∧ slab.remove h = .ok (removed, t.slab)) := by
  rw [insert, if_neg (not_not_intro hshape)] at hinsert
  obtain ⟨⟨h, slab⟩, hslab, hinsert⟩ := Checked.bind_eq_ok.1 hinsert
  refine ⟨h, slab, hslab, ?_⟩
  dsimp only at hinsert
  split at hinsert
  next stored _ =>
    obtain ⟨⟨refusal, placed⟩, _, hinsert⟩ := Checked.bind_eq_ok.1 hinsert
    cases refusal with
    | none =>
      obtain ⟨rfl, rfl⟩ := Prod.mk.inj (Except.ok.inj hinsert)
      exact .inl ⟨rfl, rfl⟩
    | some err =>
      obtain ⟨⟨removed, slab'⟩, hremove, hinsert⟩ := Checked.bind_eq_ok.1 hinsert
      obtain ⟨rfl, rfl⟩ := Prod.mk.inj (Except.ok.inj hinsert)
      exact .inr ⟨err, removed, rfl, hremove⟩
  next => cases hinsert

theorem delete_slab {removed : Option Entry} (hdelete : s.delete h = .ok (removed, t)) :
    s.slab.remove h = .ok (removed, t.slab) := by
  rw [delete] at hdelete
  split at hdelete
  next habsent =>
    obtain ⟨rfl, rfl⟩ := Prod.mk.inj (Except.ok.inj hdelete)
    exact Slab.remove_of_absent habsent
  next e _ =>
    obtain ⟨indices, _, hdelete⟩ := Checked.bind_eq_ok.1 hdelete
    obtain ⟨⟨removed', slab⟩, hremove, hdelete⟩ := Checked.bind_eq_ok.1 hdelete
    obtain ⟨rfl, rfl⟩ := Prod.mk.inj (Except.ok.inj hdelete)
    exact hremove

section Updates

variable {ρ : Type} {mutate : Entry → Checked (Entry × ρ)} {old new : Entry} {result : ρ}

theorem update_slab (hs : s.Invariant) (hh : s.source h = some old)
    (hnew : mutate old = .ok (new, result)) (htyped : new.Typed)
    {answer : Except Error (Option ρ)} (hupdate : s.update h mutate = .ok (answer, t)) :
    t.slab = if answer.isOk then s.slab.replace h new else s.slab := by
  have hentry : s.entry? h = some old := hh
  rw [update, hentry] at hupdate
  dsimp only at hupdate
  rw [hnew, Checked.ok_bind] at hupdate
  dsimp only at hupdate
  split at hupdate
  next =>
    obtain ⟨rfl, rfl⟩ := Prod.mk.inj (Except.ok.inj hupdate)
    rfl
  next hshape =>
    have hn : new.Conforms s.shape := ⟨htyped, by simpa using hshape⟩
    obtain ⟨⟨refusal, moved⟩, hmove, hupdate⟩ := Checked.bind_eq_ok.1 hupdate
    rw [move_eq hs hh hn] at hmove
    obtain ⟨lifted, _, hmove⟩ := Checked.bind_eq_ok.1 hmove
    obtain ⟨⟨refusal', placed⟩, _, hmove⟩ := Checked.bind_eq_ok.1 hmove
    cases refusal' with
    | none =>
      obtain ⟨rfl, rfl⟩ := Prod.mk.inj (Except.ok.inj hmove)
      obtain ⟨rfl, rfl⟩ := Prod.mk.inj (Except.ok.inj hupdate)
      rfl
    | some err =>
      obtain ⟨restored, _, hmove⟩ := Checked.bind_eq_ok.1 hmove
      obtain ⟨rfl, rfl⟩ := Prod.mk.inj (Except.ok.inj hmove)
      obtain ⟨rfl, rfl⟩ := Prod.mk.inj (Except.ok.inj hupdate)
      rfl

end Updates

/-! ## Stores with further indices -/

/-- A store has what another one holds, in its indices and in further ones. -/
structure Extends (s t : Store) (extra : List Descriptor) : Prop where
  shape : t.shape = s.shape
  slab : t.slab = s.slab
  descriptors : t.descriptors = s.descriptors ++ extra

namespace Extends

variable {extra : List Descriptor} (hst : s.Extends t extra)
  (hextra : ∀ d ∈ extra, d.isUnique = false)
include hst

theorem source : t.source = s.source := by rw [Store.source, hst.slab]; rfl

theorem of_slab {s' t' : Store} (hslab : t'.slab = s'.slab) (hshape : s'.shape = s.shape)
    (hshape' : t'.shape = t.shape) (hdesc : s'.descriptors = s.descriptors)
    (hdesc' : t'.descriptors = t.descriptors) : s'.Extends t' extra where
  shape := by rw [hshape', hshape, hst.shape]
  slab := hslab
  descriptors := by rw [hdesc', hdesc, hst.descriptors]

include hextra

/-- What the indices of a store decide, they and further ones that are not unique decide alike. -/
theorem decides_unique {others : Source} {a b : Option Error}
    (ha : Decides s.shape others e 0 s.descriptors a)
    (hb : Decides t.shape others e 0 t.descriptors b) : a = b := by
  rw [hst.shape, hst.descriptors] at hb
  exact (ha.append fun d hd => Descriptor.permits_of_not_unique (hextra d hd)).unique hb

variable (hs : s.Invariant) (ht : t.Invariant)
include hs ht

theorem insert (ha : e.Typed ∧ s.size < UInt32.size) : ∃ answer s' t',
    s.insert e = .ok (answer, s') ∧ t.insert e = .ok (answer, t') ∧ s'.Invariant ∧ t'.Invariant ∧
      s'.Extends t' extra := by
  have hsize : t.size < UInt32.size := by
    rw [size, hst.slab]
    exact ha.2
  obtain ⟨a, s', hinsert, hs', hshape, hdesc, _⟩ := insert_spec hs ha.1 (hs.slab.hasRoom ha.2)
  obtain ⟨b, t', hinsert', ht', hshape', hdesc', _⟩ := insert_spec ht ha.1 (ht.slab.hasRoom hsize)
  suffices hsame : a = b ∧ t'.slab = s'.slab by
    obtain ⟨rfl, hslab⟩ := hsame
    exact ⟨a, s', t', hinsert, hinsert', hs', ht', hst.of_slab hslab hshape hshape' hdesc hdesc'⟩
  by_cases he : e.shape = s.shape
  · have he' : e.shape = t.shape := he.trans hst.shape.symm
    have hdecides := insert_decides hs (hs.slab.hasRoom ha.2) ⟨ha.1, he⟩ hinsert
    have hdecides' := insert_decides ht (ht.slab.hasRoom hsize) ⟨ha.1, he'⟩ hinsert'
    rw [hst.source] at hdecides'
    have hrefusal := hst.decides_unique hextra hdecides hdecides'
    obtain ⟨h, slab, hslab, hanswer⟩ := insert_slab he hinsert
    obtain ⟨h', slab', hslab', hanswer'⟩ := insert_slab he' hinsert'
    rw [hst.slab] at hslab'
    obtain ⟨rfl, rfl⟩ := Prod.mk.inj (Except.ok.inj (hslab.symm.trans hslab'))
    -- A refusal of one is a refusal of the other, and the slab does what it does in both.
    obtain ⟨rfl, hkept⟩ | ⟨err, removed, rfl, hremove⟩ := hanswer
    · obtain ⟨rfl, hkept'⟩ | ⟨err, removed, rfl, hremove⟩ := hanswer'
      · exact ⟨rfl, hkept'.trans hkept.symm⟩
      · cases hrefusal
    · obtain ⟨rfl, hkept'⟩ | ⟨err', removed', rfl, hremove'⟩ := hanswer'
      · cases hrefusal
      · have hslabs := (Prod.mk.inj (Except.ok.inj (hremove'.symm.trans hremove))).2
        exact ⟨by rw [Option.some.inj hrefusal], hslabs⟩
  · rw [Store.insert, if_pos he] at hinsert
    rw [Store.insert, hst.shape, if_pos he] at hinsert'
    obtain ⟨rfl, rfl⟩ := Prod.mk.inj (Except.ok.inj hinsert)
    obtain ⟨rfl, rfl⟩ := Prod.mk.inj (Except.ok.inj hinsert')
    exact ⟨rfl, hst.slab⟩

theorem update {ρ : Type} {mutate : Entry → Checked (Entry × ρ)}
    (hm : Total (s.entry? h = some ·) mutate) : ∃ answer s' t',
      s.update h mutate = .ok (answer, s') ∧
      t.update h mutate = .ok (answer, t') ∧ s'.Invariant ∧ t'.Invariant ∧
      s'.Extends t' extra := by
  have hsame : t.entry? h = s.entry? h := congrFun hst.source h
  obtain ⟨a, s', hupdate, ⟨hs', hshape⟩, hdesc, _⟩ := update_spec hs hm
  obtain ⟨b, t', hupdate', ⟨ht', hshape'⟩, hdesc', _⟩ :=
    update_spec ht fun e he => hm e (hsame ▸ he)
  suffices hsame : a = b ∧ t'.slab = s'.slab by
    obtain ⟨rfl, hslab⟩ := hsame
    exact ⟨a, s', t', hupdate, hupdate', hs', ht', hst.of_slab hslab hshape hshape' hdesc hdesc'⟩
  cases hh : s.source h with
  | none =>
    have hentry : s.entry? h = none := hh
    have hentry' : t.entry? h = none := (congrFun hst.source h).trans hh
    rw [Store.update, hentry] at hupdate
    rw [Store.update, hentry'] at hupdate'
    obtain ⟨rfl, rfl⟩ := Prod.mk.inj (Except.ok.inj hupdate)
    obtain ⟨rfl, rfl⟩ := Prod.mk.inj (Except.ok.inj hupdate')
    exact ⟨rfl, hst.slab⟩
  | some old =>
    have hh' : t.source h = some old := (congrFun hst.source h).trans hh
    obtain ⟨new, result, hnew, htyped⟩ := hm old hh
    have hsame : a = b := by
      have ha := update_decides hs hh hnew htyped hupdate
      have hb := update_decides ht hh' hnew htyped hupdate'
      rw [hst.shape] at hb
      obtain ⟨hne, rfl⟩ | ⟨heq, refusal, hdecides, rfl⟩ := ha
      · obtain ⟨_, rfl⟩ | ⟨heq, _⟩ := hb
        · rfl
        · exact absurd heq hne
      · obtain ⟨hne, _⟩ | ⟨_, refusal', hdecides', rfl⟩ := hb
        · exact absurd heq hne
        · rw [hst.source, ← hst.shape] at hdecides'
          rw [hst.decides_unique hextra hdecides hdecides']
    subst hsame
    refine ⟨rfl, ?_⟩
    rw [update_slab hs hh hnew htyped hupdate, update_slab ht hh' hnew htyped hupdate', hst.slab]

omit hextra in
theorem delete (h : Handle) : ∃ removed s' t', s.delete h = .ok (removed, s') ∧
    t.delete h = .ok (removed, t') ∧ s'.Invariant ∧ t'.Invariant ∧ s'.Extends t' extra := by
  obtain ⟨s', hdelete, ⟨hs', hshape⟩, hdesc, _⟩ := delete_spec hs h
  obtain ⟨t', hdelete', ⟨ht', hshape'⟩, hdesc', _⟩ := delete_spec ht h
  rw [hst.source] at hdelete'
  have hslab := delete_slab hdelete
  have hslab' := delete_slab hdelete'
  rw [hst.slab] at hslab'
  have hsame := (Prod.mk.inj (Except.ok.inj (hslab'.symm.trans hslab))).2
  exact ⟨s.source h, s', t', hdelete, hdelete', hs', ht',
    hst.of_slab hsame hshape hshape' hdesc hdesc'⟩

theorem perform {ρ : Type} {change : Handling ρ} (ha : change.Allowed s) : ∃ answer s' t',
    change.perform s = .ok (answer, s') ∧ change.perform t = .ok (answer, t') ∧
      s'.Invariant ∧ t'.Invariant ∧ s'.Extends t' extra := by
  cases change with
  | insert e =>
    obtain ⟨answer, s', t', hinsert, hinsert', hkept⟩ := hst.insert hextra hs ht ha
    exact ⟨.inserted answer, s', t', by rw [Handling.perform, hinsert]; rfl,
      by rw [Handling.perform, hinsert']; rfl, hkept⟩
  | update h mutate =>
    obtain ⟨answer, s', t', hupdate, hupdate', hkept⟩ := hst.update hextra hs ht ha
    exact ⟨.updated answer, s', t', by rw [Handling.perform, hupdate]; rfl,
      by rw [Handling.perform, hupdate']; rfl, hkept⟩
  | delete h =>
    obtain ⟨removed, s', t', hdelete, hdelete', hkept⟩ := hst.delete hs ht h
    exact ⟨.deleted removed, s', t', by rw [Handling.perform, hdelete]; rfl,
      by rw [Handling.perform, hdelete']; rfl, hkept⟩

/-- Changes answer alike in a store and in one that has further indices, none of them unique. -/
theorem performAll {ρ : Type} {changes : List (Handling ρ)}
    (ha : Handling.Admissible changes s) : ∃ answers s' t',
    Handling.performAll changes s = .ok (answers, s') ∧
      Handling.performAll changes t = .ok (answers, t') ∧ s'.Invariant ∧ t'.Invariant ∧
      s'.Extends t' extra := by
  induction changes generalizing s t with
  | nil => exact ⟨[], s, t, rfl, rfl, hs, ht, hst⟩
  | cons change rest ih =>
    obtain ⟨hallowed, hrest⟩ := ha
    obtain ⟨answer, s', t', hperform, hperform', hs', ht', hst'⟩ := hst.perform hextra hs ht hallowed
    obtain ⟨answers, u, v, hall, hall', hkept⟩ := ih hst' hs' ht' (hrest answer s' hperform)
    exact ⟨answer :: answers, u, v, by simp [Handling.performAll, hperform, hall],
      by simp [Handling.performAll, hperform', hall'], hkept⟩

end Extends

end Store
end IndexedStore
