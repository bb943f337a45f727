import IndexedStore.Proofs.Constraints
import IndexedStore.Proofs.Runs

/-!
# Which entries a store takes

A store takes an entry beside others if it has the shape of the store and every index permits it.
Insertions and updates succeed exactly for such entries; the error for any other one tells the first
index that does not permit it, with the key. No entry but the one changed notices.
-/
namespace IndexedStore.Store

variable {s t : Store} {others : Source} {h : Handle} {e : Entry}

/-- Whether a store takes an entry beside others. -/
structure Accepts (s : Store) (others : Source) (e : Entry) : Prop where
  shape : e.shape = s.shape
  permits : ∀ d ∈ s.descriptors, d.Permits s.shape others e

/-- The error for an entry that a store does not take beside others: for its shape, or else from the
first index that does not permit it. -/
inductive Refuses (s : Store) (others : Source) (e : Entry) : Error → Prop
  | shape : e.shape ≠ s.shape → Refuses s others e (.shapeMismatch s.shape e.shape)
  | index {slot : Nat} {d : Descriptor} {err : Error} : e.shape = s.shape →
      s.descriptors[slot]? = some d → ¬ d.Permits s.shape others e →
      (∀ k < slot, ∀ d', s.descriptors[k]? = some d' → d'.Permits s.shape others e) →
      d.Reports s.shape slot e err → Refuses s others e err

theorem Refuses.not_accepts {err : Error} (h : s.Refuses others e err) : ¬ s.Accepts others e := by
  rintro ⟨hshape, hpermits⟩
  cases h with
  | shape hne => exact hne hshape
  | index _ hd hnot => exact hnot (hpermits _ (List.mem_of_getElem? hd))

theorem Decides.refuses {err : Error} (hshape : e.shape = s.shape)
    (h : Decides s.shape others e 0 s.descriptors (some err)) : s.Refuses others e err := by
  obtain ⟨before, d, rest, hds, hbefore, hnot, hreports⟩ := h
  rw [Nat.zero_add] at hreports
  refine .index hshape (d := d) ?_ hnot (fun k hk d' hd' => ?_) hreports
  · rw [hds, List.getElem?_append_right (Nat.le_refl _), Nat.sub_self]
    rfl
  · rw [hds, List.getElem?_append_left hk] at hd'
    exact hbefore d' (List.mem_of_getElem? hd')

section Answers

variable (hs : s.Invariant)
include hs

theorem insert_decides (hr : s.slab.HasRoom) (he : e.Conforms s.shape)
    {answer : Except Error Handle} (hinsert : s.insert e = .ok (answer, t)) :
    Decides s.shape s.source e 0 s.descriptors (match answer with
      | .ok _ => none
      | .error err => some err) := by
  have hall : List.Forall₂ (Awaits s.shape s.source e) s.descriptors (markAll s.indices) := by
    rw [descriptors, markAll, List.forall₂_map_left_iff, List.forall₂_map_right_iff,
      List.forall₂_same]
    exact fun d hd => ⟨rfl, hs.stands d hd, fun _ => hs.sound d hd, fun hmark => by cases hmark⟩
  obtain ⟨_, hinsert', hcase⟩ := exists_insertion hs he hr
  obtain rfl := Except.ok.inj (hinsert'.symm.trans hinsert)
  cases hcase with
  | taken hfree _ hget hplace _ =>
    exact place_decides hs.conforms hfree he (eq_off_of_eq_update hget) hall hplace
  | undone hfree hget _ _ hplace _ =>
    exact place_decides hs.conforms hfree he (eq_off_of_eq_update hget) hall hplace

variable {old new : Entry} (hh : s.source h = some old) (hn : new.Conforms s.shape)
include hh

theorem permits_of_moves {d : Declared} (hd : d ∈ s.indices) (hm : d.index.moves old new = false) :
    d.descriptor.Permits s.shape (Function.update s.source h none) new := by
  have hstands := hs.stands d hd
  refine (hstands.admits_iff (Function.update_self _ _ _)).1 ?_
  rcases Index.level_of_moves hm with hlist | level
  · cases hi : d.index with
    | list l => exact ⟨trivial, fun hu => by cases hu⟩
    | hash | tree | array | heap =>
      rw [hi] at hlist
      cases hlist
  · exact (((hs.sound d hd).admitted h old hh).of_level level).congr rfl fun k hk =>
      Function.update_of_ne hk _ _

include hn

theorem move_decides {refusal : Option Error} (hmove : s.move h old new = .ok (refusal, t)) :
    Decides s.shape (Function.update s.source h none) new 0 s.descriptors refusal := by
  obtain ⟨lifted, hlift, hlost⟩ := exists_lift hs hh
  rw [move_eq hs hh hn, hlift, Checked.ok_bind] at hmove
  obtain ⟨⟨refusal', placed⟩, hplace, hmove⟩ := Checked.bind_eq_ok.1 hmove
  have hall : List.Forall₂ (Awaits s.shape (Function.update s.source h none) new) s.descriptors
      lifted := by
    rw [descriptors, List.forall₂_map_left_iff]
    refine hlost.imp ?_
    rintro d m ⟨hd, hl⟩
    obtain ⟨hstands, _, hmark, hsound, _⟩ := lost_spec hs hh hd hl
    exact ⟨hl.2.1, hstands, hsound, fun hm => permits_of_moves hs hh hd (hmark ▸ hm)⟩
  have hdecides := place_decides (conforms_erase hs.conforms) (Function.update_self _ _ _) hn
    (update_off _ _ _ _) hall hplace
  cases refusal' with
  | none =>
    obtain ⟨rfl, -⟩ := Prod.mk.inj (Except.ok.inj hmove)
    exact hdecides
  | some err =>
    obtain ⟨_, _, hmove⟩ := Checked.bind_eq_ok.1 hmove
    obtain ⟨rfl, -⟩ := Prod.mk.inj (Except.ok.inj hmove)
    exact hdecides

omit hn in
/-- An update of a live entry is decided by the shape of the new version, then by the indices. -/
theorem update_decides {ρ : Type} {mutate : Entry → Checked (Entry × ρ)} {result : ρ}
    (hnew : mutate old = .ok (new, result)) (ht : new.Typed) {answer : Except Error (Option ρ)}
    (hupdate : s.update h mutate = .ok (answer, t)) :
    new.shape ≠ s.shape ∧ answer = .error (.shapeMismatch s.shape new.shape) ∨
    new.shape = s.shape ∧ ∃ refusal,
      Decides s.shape (Function.update s.source h none) new 0 s.descriptors refusal ∧
      answer = match refusal with
        | none => .ok (some result)
        | some err => .error err := by
  have hentry : s.entry? h = some old := hh
  rw [update, hentry] at hupdate
  dsimp only at hupdate
  rw [hnew, Checked.ok_bind] at hupdate
  dsimp only at hupdate
  split at hupdate
  next hne =>
    obtain ⟨rfl, -⟩ := Prod.mk.inj (Except.ok.inj hupdate)
    exact .inl ⟨hne, rfl⟩
  next hshape =>
    have hshape : new.shape = s.shape := by simpa using hshape
    obtain ⟨⟨refusal, moved⟩, hmove, hupdate⟩ := Checked.bind_eq_ok.1 hupdate
    refine .inr ⟨hshape, refusal, move_decides hs hh ⟨ht, hshape⟩ hmove, ?_⟩
    cases refusal <;> exact (Prod.mk.inj (Except.ok.inj hupdate)).1.symm

end Answers

structure InsertDecided (s : Store) (e : Entry) (answer : Except Error Handle) (t : Store) :
    Prop where
  accepted_iff : (∃ h, answer = .ok h) ↔ s.Accepts s.source e
  inserted : ∀ h, answer = .ok h → s.entry? h = none ∧ t.entry? h = some e
  refused : ¬ s.Accepts s.source e → ∃ err, answer = .error err ∧ s.Refuses s.source e err
  kept : ∀ k, answer ≠ .ok k → t.entry? k = s.entry? k

/-- What an update has to answer, with the store it leaves. The new version of an entry stands
beside all entries but the old version. -/
structure UpdateDecided {ρ : Type} (s : Store) (h : Handle) (mutate : Entry → Checked (Entry × ρ))
    (answer : Except Error (Option ρ)) (t : Store) : Prop where
  absent_iff : answer = .ok none ↔ s.entry? h = none
  accepted_iff : ∀ old new result, s.entry? h = some old → mutate old = .ok (new, result) →
    (answer = .ok (some result) ∧ t.entry? h = some new ↔
      s.Accepts (Function.update s.source h none) new)
  refused : ∀ old new result, s.entry? h = some old → mutate old = .ok (new, result) →
    ¬ s.Accepts (Function.update s.source h none) new → ∃ err, answer = .error err ∧
      s.Refuses (Function.update s.source h none) new err ∧ t.entry? h = some old
  kept : ∀ k ≠ h, t.entry? k = s.entry? k

theorem insert_answer (hs : s.Invariant) (ha : (Operation.insert e).Allowed s)
    {answer : Except Error Handle} (hinsert : s.insert e = .ok (answer, t)) :
    (∃ h, answer = .ok h ∧ s.Accepts s.source e) ∨
    ∃ err, answer = .error err ∧ s.Refuses s.source e err := by
  by_cases hshape : e.shape = s.shape
  · have hdecides := insert_decides hs (hs.slab.hasRoom ha.2) ⟨ha.1, hshape⟩ hinsert
    cases answer with
    | ok h => exact .inl ⟨h, rfl, hshape, hdecides⟩
    | error err => exact .inr ⟨err, rfl, hdecides.refuses hshape⟩
  · rw [insert, if_pos hshape] at hinsert
    obtain ⟨rfl, -⟩ := Prod.mk.inj (Except.ok.inj hinsert)
    exact .inr ⟨_, rfl, .shape hshape⟩

theorem insert_decided (hs : s.Invariant) (ha : (Operation.insert e).Allowed s) :
    ∃ answer t, s.insert e = .ok (answer, t) ∧ s.InsertDecided e answer t := by
  obtain ⟨answer, t, hinsert, _, _, _, hinserted⟩ :=
    insert_spec hs ha.1 (hs.slab.hasRoom ha.2)
  refine ⟨answer, t, hinsert, ?_⟩
  obtain ⟨h, rfl, haccepts⟩ | ⟨err, rfl, hrefuses⟩ := insert_answer hs ha hinsert
  · obtain ⟨hfree, hsource⟩ := hinserted
    refine ⟨iff_of_true ⟨h, rfl⟩ haccepts, ?_, fun hnot => absurd haccepts hnot, fun k hk => ?_⟩
    · rintro _ ⟨⟩
      refine ⟨hfree, ?_⟩
      change t.source h = some e
      rw [hsource, Function.update_self]
    · change t.source k = s.source k
      rw [hsource, Function.update_of_ne fun he => hk (by rw [he])]
  · have hsource : t.source = s.source := hinserted
    refine ⟨iff_of_false ?_ hrefuses.not_accepts, ?_, fun _ => ⟨err, rfl, hrefuses⟩,
      fun k _ => congrFun hsource k⟩
    · rintro ⟨h, ⟨⟩⟩
    · rintro h ⟨⟩

section Updates

variable {ρ : Type} {mutate : Entry → Checked (Entry × ρ)} {h : Handle} (hs : s.Invariant)
  (hm : Total (s.entry? h = some ·) mutate)
include hs hm

theorem update_live {old new : Entry} {result : ρ} {answer : Except Error (Option ρ)}
    (hh : s.source h = some old) (hnew : mutate old = .ok (new, result))
    (hupdate : s.update h mutate = .ok (answer, t)) :
    (answer = .ok (some result) ∧ s.Accepts (Function.update s.source h none) new ∧
      t.source = Function.update s.source h (some new)) ∨
    ∃ err, answer = .error err ∧ s.Refuses (Function.update s.source h none) new err ∧
      t.source = s.source := by
  obtain ⟨answer', t', hupdate', _, _, hupdated⟩ := update_spec hs hm
  obtain ⟨rfl, rfl⟩ : answer = answer' ∧ t = t' := by simpa using hupdate.symm.trans hupdate'
  have htyped : new.Typed := hm.typed hh hnew
  have hkept {err : Error} (hanswer : answer = .error err) : t.source = s.source := by
    subst hanswer
    obtain ⟨_, _, _, _, _, ⟨_, rfl⟩ | ⟨_, hslab, _⟩⟩ := hupdated
    · rfl
    · rw [source, hslab]
      rfl
  obtain ⟨hne, hanswer⟩ | ⟨hshape, refusal, hdecides, hanswer⟩ :=
    update_decides hs hh hnew htyped hupdate
  · exact .inr ⟨_, hanswer, .shape hne, hkept hanswer⟩
  · cases refusal with
    | none =>
      subst hanswer
      obtain ⟨old', new', hh', hnew', hsource⟩ := hupdated
      obtain rfl := Option.some.inj (hh.symm.trans hh')
      obtain ⟨rfl, -⟩ := Prod.mk.inj (Except.ok.inj (hnew.symm.trans hnew'))
      exact .inl ⟨rfl, ⟨hshape, hdecides⟩, hsource⟩
    | some err => exact .inr ⟨err, hanswer, hdecides.refuses hshape, hkept hanswer⟩

theorem update_decided :
    ∃ answer t, s.update h mutate = .ok (answer, t) ∧ s.UpdateDecided h mutate answer t := by
  cases hh : s.source h with
  | none =>
    have hentry : s.entry? h = none := hh
    have habsent {old : Entry} (hold : s.entry? h = some old) : False := by
      cases hentry.symm.trans hold
    refine ⟨.ok none, s, by rw [update, hentry]; rfl, iff_of_true rfl hentry, ?_, ?_,
      fun _ _ => rfl⟩
    · exact fun old new result hold => (habsent hold).elim
    · exact fun old new result hold => (habsent hold).elim
  | some old =>
    obtain ⟨answer, t, hupdate, _⟩ := update_spec hs hm
    obtain ⟨new, result, hnew, _⟩ := hm old hh
    have hlive := update_live hs hm hh hnew hupdate
    have hself {old' new' : Entry} {result' : ρ} (hold' : s.entry? h = some old')
        (hnew' : mutate old' = .ok (new', result')) : old' = old ∧ new' = new ∧ result' = result := by
      obtain rfl := Option.some.inj (hold'.symm.trans hh)
      exact ⟨rfl, Prod.mk.inj (Except.ok.inj (hnew'.symm.trans hnew))⟩
    have hentry {k : Handle} : t.entry? k = t.source k := rfl
    refine ⟨answer, t, hupdate, ⟨?_, fun old' new' result' hold' hnew' => ?_,
      fun old' new' result' hold' hnew' hnot => ?_, fun k hk => ?_⟩⟩
    · refine iff_of_false (fun hnone => ?_) fun hnone => by cases hh.symm.trans hnone
      obtain ⟨hanswer, _⟩ | ⟨err, hanswer, _⟩ := hlive <;> cases hnone.symm.trans hanswer
    · obtain ⟨rfl, rfl, rfl⟩ := hself hold' hnew'
      obtain ⟨hanswer, haccepts, hsource⟩ | ⟨err, hanswer, hrefuses, _⟩ := hlive
      · exact iff_of_true ⟨hanswer, by rw [hentry, hsource, Function.update_self]⟩ haccepts
      · refine iff_of_false ?_ hrefuses.not_accepts
        rintro ⟨hok, _⟩
        cases hok.symm.trans hanswer
    · obtain ⟨rfl, rfl, rfl⟩ := hself hold' hnew'
      obtain ⟨_, haccepts, _⟩ | ⟨err, hanswer, hrefuses, hsource⟩ := hlive
      · exact absurd haccepts hnot
      · exact ⟨err, hanswer, hrefuses, by rw [hentry, hsource, hh]⟩
    · obtain ⟨_, _, hsource⟩ | ⟨_, _, _, hsource⟩ := hlive
      · rw [hentry, hsource, Function.update_of_ne hk]
        rfl
      · rw [hentry, hsource]
        rfl

end Updates

/-- In every store that a run leads to, an insertion and an update are decided by the shape of the
entry and by what the indices permit beside all other entries, and touch no other entry. -/
theorem changes_decided (hr : s.Reachable) :
    (∀ e, (Operation.insert e).Allowed s →
      ∃ answer t, s.insert e = .ok (answer, t) ∧ s.InsertDecided e answer t) ∧
    ∀ {ρ : Type} (h : Handle) (mutate : Entry → Checked (Entry × ρ)),
      Total (s.entry? h = some ·) mutate →
      ∃ answer t, s.update h mutate = .ok (answer, t) ∧ s.UpdateDecided h mutate answer t :=
  ⟨fun _ ha => insert_decided hr.invariant ha, fun _ _ hm => update_decided hr.invariant hm⟩

def gridLayout : List Descriptor :=
  [.ofForm (.list []), .ofForm (.array [⟨1, 0, 4⟩]), .ofForm (.hash [2] true)]

def gridPairs : List Entry := [samplePair 1 10, samplePair 2 20]

/-- A change of both positions in place, to what the other entry has there. -/
def gridMove : Entry → Checked (Entry × List (Option Error)) :=
  Edit.applyAll [.set 1 (.int 2), .accumulate .plus 2 (.int 10)]

/-- Of two indices that do not permit an entry, the first one reports it: an insertion for its
bounds, an update for the other entry under the key. -/
theorem changes_decided_of_grid : ∃ s, Reachable s ∧
    (∃ t, s.insert (samplePair 7 20) = .ok (.error (.keyOutOfBounds 1 [.int 7]), t) ∧
      s.InsertDecided (samplePair 7 20) (.error (.keyOutOfBounds 1 [.int 7])) t) ∧
    Total (s.entry? ⟨0, 0⟩ = some ·) gridMove ∧
    ∃ t, s.update ⟨0, 0⟩ gridMove = .ok (.error (.duplicateKey 1 [.int 2]), t) ∧
      s.UpdateDecided ⟨0, 0⟩ gridMove (.error (.duplicateKey 1 [.int 2])) t := by
  obtain ⟨s, hs⟩ : ∃ s, create ⟨[.int, .int]⟩ gridLayout = .ok s := ⟨_, rfl⟩
  obtain ⟨t, ht⟩ : ∃ t, run (gridPairs.map .insert) s = .ok t := by
    obtain rfl := Except.ok.inj hs
    exact ⟨_, rfl⟩
  have hr : Reachable t := .filled hs (by decide) (by decide) ht
  have hfacts : (Operation.insert (samplePair 7 20)).Allowed t ∧
      (∃ u, t.insert (samplePair 7 20) = .ok (.error (.keyOutOfBounds 1 [.int 7]), u)) ∧
      Total (t.entry? ⟨0, 0⟩ = some ·) gridMove ∧
      ∃ u, t.update ⟨0, 0⟩ gridMove = .ok (.error (.duplicateKey 1 [.int 2]), u) := by
    obtain rfl := Except.ok.inj hs
    obtain rfl := Except.ok.inj ht
    refine ⟨⟨rfl, by decide⟩, ⟨_, rfl⟩, fun e he => ?_, ⟨_, rfl⟩⟩
    obtain rfl := Option.some.inj he
    exact ⟨_, _, rfl, rfl⟩
  obtain ⟨ha, ⟨u, hinsert⟩, hm, v, hupdate⟩ := hfacts
  obtain ⟨hinsertions, hupdates⟩ := changes_decided hr
  obtain ⟨answer, u', hinsert', hinserted⟩ := hinsertions _ ha
  obtain ⟨answer', v', hupdate', hupdated⟩ := hupdates ⟨0, 0⟩ gridMove hm
  obtain ⟨rfl, rfl⟩ := Prod.mk.inj (Except.ok.inj (hinsert.symm.trans hinsert'))
  obtain ⟨rfl, rfl⟩ := Prod.mk.inj (Except.ok.inj (hupdate.symm.trans hupdate'))
  exact ⟨t, hr, ⟨u, hinsert, hinserted⟩, hm, v, hupdate, hupdated⟩

end IndexedStore.Store
