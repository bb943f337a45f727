import IndexedStore.Proofs.Placements
import IndexedStore.Proofs.Slabs

/-!
# The invariant of a store

The slab of a store is sound, its entries are of its shape, and every index is sound for what the
slab answers. An insertion, a change of an entry and a deletion keep it so, whether some index
refuses them or none does, and a refused one leaves what the handles reach as it was.
-/
namespace IndexedStore.Store

variable {s t : Store} {h : Handle} {e : Entry}

structure Invariant (s : Store) : Prop where
  slab : s.slab.Sound
  conforms : s.source.Conforms s.shape
  stands : ∀ d ∈ s.indices, d.Stands s.shape
  sound : ∀ d ∈ s.indices, d.index.Sound s.source
  primary : s.indices ≠ []

theorem conforms_update {source : Source} {shape : Shape} (hs : source.Conforms shape)
    (he : e.Conforms shape) : Source.Conforms (Function.update source h (some e)) shape := by
  intro k x hx
  by_cases hk : k = h
  · subst hk
    obtain rfl : e = x := by simpa using hx
    exact he
  · rw [Function.update_of_ne hk] at hx
    exact hs hx

theorem conforms_erase {source : Source} {shape : Shape} (hs : source.Conforms shape) :
    Source.Conforms (Function.update source h none) shape := by
  intro k x hx
  by_cases hk : k = h
  · subst hk
    simp at hx
  · rw [Function.update_of_ne hk] at hx
    exact hs hx

theorem Invariant.of_indices (hs : s.Invariant) (hslab : t.slab.Sound) (hshape : t.shape = s.shape)
    (hconforms : t.source.Conforms s.shape)
    (hindices : ∀ d ∈ t.indices, d.Stands s.shape ∧ d.index.Sound t.source)
    (hdesc : t.descriptors = s.descriptors) : t.Invariant where
  slab := hslab
  conforms := hshape ▸ hconforms
  stands d hd := hshape ▸ (hindices d hd).1
  sound d hd := (hindices d hd).2
  primary := by
    intro hnil
    have hlength := congrArg List.length hdesc
    rw [descriptors, descriptors, hnil] at hlength
    exact hs.primary (by simpa using hlength.symm)

/-! ## Insertion -/

def Inserted (s : Store) (e : Entry) : Except Error Handle → Source → Prop
  | .ok h, source => s.source h = none ∧ source = Function.update s.source h (some e)
  | .error _, source => source = s.source

theorem eq_off_of_eq_update {source after : Source} {x : Option Entry}
    (ha : after = Function.update source h x) : ∀ k ≠ h, after k = source k := fun k hk => by
  rw [ha, Function.update_of_ne hk]

section Insertion

variable (hs : s.Invariant) (he : e.Conforms s.shape) (hfree : s.source h = none) {slab : Slab Entry}
  (hslab : slab.Sound) {placed : List Declared}
include hs he hfree hslab

theorem invariant_of_took (hget : slab.get? = Function.update s.source h (some e))
    (htook : List.Forall₂ (Took slab.get? h e) (markAll s.indices) placed) :
    placed.map Declared.descriptor = s.descriptors ∧
      { s with indices := placed, slab }.Invariant := by
  have hdesc : placed.map Declared.descriptor = s.descriptors := by
    rw [Checked.map_eq_of_forall₂ (f := fun m => m.2.descriptor) htook fun m d hmd => hmd.1]
    simp [markAll, descriptors]
  refine ⟨hdesc, hs.of_indices hslab rfl ?_ (fun d hd => ?_) hdesc⟩
  · change Source.Conforms slab.get? s.shape
    exact hget ▸ conforms_update hs.conforms he
  · obtain ⟨m, hm, hdescriptor, hadd⟩ := Checked.exists_of_mem_right htook hd
    obtain ⟨d, hmi, rfl⟩ := List.mem_map.1 hm
    rw [if_pos rfl] at hadd
    have hd := hs.stands d hmi
    obtain ⟨hsound, hb⟩ := sound_of_add hs.conforms hfree he (eq_off_of_eq_update hget) hd.reads
      (hs.sound d hmi) hadd
    refine ⟨hd.congr hdescriptor hb, ?_⟩
    change Index.Sound slab.get? _
    exact hget ▸ hsound

theorem invariant_of_undid {after : Source} (hafter : after = Function.update s.source h (some e))
    (hback : slab.get? = s.source)
    (hundid : List.Forall₂ (Undid after h e) (markAll s.indices) placed) :
    placed.map Declared.descriptor = s.descriptors ∧
      { s with indices := placed, slab }.Invariant := by
  have hdesc : placed.map Declared.descriptor = s.descriptors := by
    rw [Checked.map_eq_of_forall₂ (f := fun m => m.2.descriptor) hundid fun m d hmd => hmd.1]
    simp [markAll, descriptors]
  refine ⟨hdesc, hs.of_indices hslab rfl ?_ (fun d hd => ?_) hdesc⟩
  · change Source.Conforms slab.get? s.shape
    exact hback ▸ hs.conforms
  · obtain ⟨m, hm, hmd⟩ := Checked.exists_of_mem_right hundid hd
    obtain ⟨d, hmi, rfl⟩ := List.mem_map.1 hm
    obtain ⟨hsound, hstands⟩ := sound_of_undid hs.conforms hfree he (eq_off_of_eq_update hafter) hmd
      (hs.stands d hmi) (hs.sound d hmi)
    refine ⟨hstands, ?_⟩
    change Index.Sound slab.get? _
    exact hback ▸ hsound

end Insertion

/-- What became of an insertion of an entry of the right shape: either all indices took the new
handle, or it was undone in all of them and given back to the slab. -/
inductive Insertion (s : Store) (e : Entry) : Except Error Handle × Store → Prop
  | taken {h : Handle} {slab : Slab Entry} {placed : List Declared} :
    s.source h = none → slab.Sound → slab.get? = Function.update s.source h (some e) →
    place slab.get? h e 0 (markAll s.indices) = .ok (none, placed) →
    List.Forall₂ (Took slab.get? h e) (markAll s.indices) placed →
    Insertion s e (.ok h, { s with indices := placed, slab })
  | undone {h : Handle} {slab slab' : Slab Entry} {refusal : Error} {placed : List Declared} :
    s.source h = none → slab.get? = Function.update s.source h (some e) →
    slab'.Sound → slab'.get? = s.source →
    place slab.get? h e 0 (markAll s.indices) = .ok (some refusal, placed) →
    List.Forall₂ (Undid slab.get? h e) (markAll s.indices) placed →
    Insertion s e (.error refusal, { s with indices := placed, slab := slab' })

theorem exists_insertion (hs : s.Invariant) (he : e.Conforms s.shape) (hr : s.slab.HasRoom) :
    ∃ out, s.insert e = .ok out ∧ s.Insertion e out := by
  obtain ⟨h, slab, hinsert, hslab, hfree, hget⟩ := Slab.insert_sound hs.slab hr e
  have hanswers : ∀ m ∈ markAll s.indices, m.1 = true → Answers slab.get? h e m.2 := by
    intro m hm _
    obtain ⟨d, hd, rfl⟩ := List.mem_map.1 hm
    exact answers_of_sound hs.conforms hfree he (eq_off_of_eq_update hget) (hs.stands d hd)
      (hs.sound d hd)
  obtain ⟨⟨refusal, placed⟩, hplace, hplaces⟩ := place_spec hanswers 0
  have hx : slab.get? h = some e := by simp [hget]
  rw [insert, if_neg (not_not_intro he.shape_eq), hinsert]
  cases refusal with
  | none => exact ⟨_, by simp [hx, hplace], .taken hfree hslab hget hplace hplaces⟩
  | some refusal =>
    obtain ⟨slab', hremove, hslab', hget'⟩ := Slab.remove_sound hslab hx
    have hback : slab'.get? = s.source := by
      rw [hget', hget]
      exact update_undone hfree e
    exact ⟨_, by simp [hx, hplace, hremove], .undone hfree hget hslab' hback hplace hplaces.1⟩

theorem insert_spec (hs : s.Invariant) (ht : e.Typed) (hr : s.slab.HasRoom) :
    ∃ answer t, s.insert e = .ok (answer, t) ∧ t.Invariant ∧ t.shape = s.shape ∧
      t.descriptors = s.descriptors ∧ Inserted s e answer t.source := by
  by_cases hshape : e.shape = s.shape
  · have he : e.Conforms s.shape := ⟨ht, hshape⟩
    obtain ⟨_, hinsert, hcase⟩ := exists_insertion hs he hr
    cases hcase with
    | taken hfree hslab hget _ htook =>
      obtain ⟨hdesc, ht⟩ := invariant_of_took hs he hfree hslab hget htook
      exact ⟨_, _, hinsert, ht, rfl, hdesc, hfree, hget⟩
    | undone hfree hget hslab hback _ hundid =>
      obtain ⟨hdesc, ht⟩ := invariant_of_undid hs he hfree hslab hget hback hundid
      exact ⟨_, _, hinsert, ht, rfl, hdesc, hback⟩
  · exact ⟨.error (.shapeMismatch s.shape e.shape), s, by rw [insert, if_pos hshape]; rfl, hs, rfl,
      rfl, rfl⟩

/-! ## Change -/

def Lost (h : Handle) (e : Entry) (m : Bool × Declared) (m' : Bool × Declared) : Prop :=
  m'.1 = m.1 ∧ m'.2.descriptor = m.2.descriptor ∧
    if m.1 then m.2.index.remove h e = .ok m'.2.index else m'.2.index = m.2.index

/-- What became of an index when a change of an entry was refused: where the entry would have moved,
its handle was lifted and put back, and perhaps placed and removed in between. -/
def Restored (source : Source) (h : Handle) (old new : Entry) (d d' : Declared) : Prop :=
  d'.descriptor = d.descriptor ∧ if d.index.moves old new then
      ∃ lifted undone, d.index.remove h old = .ok lifted ∧
        (undone = lifted ∨ ∃ j, lifted.add (Function.update source h (some new)) h new = .ok (.ok j) ∧
          j.remove h new = .ok undone) ∧
        undone.add source h old = .ok (.ok d'.index)
    else d'.index = d.index

theorem update_off (source : Source) (h : Handle) (x y : Option Entry) : ∀ k ≠ h,
    Function.update source h x k = Function.update source h y k := fun k hk => by
  rw [Function.update_of_ne hk, Function.update_of_ne hk]

section Change

variable (hs : s.Invariant) {old new : Entry} (hh : s.source h = some old)
  (hn : new.Conforms s.shape) {d d' : Declared} {m : Bool × Declared}

include hs hh

theorem lost_spec (hd : d ∈ s.indices) (hl : Lost h old (d.index.moves old new, d) m) :
    m.2.Stands s.shape ∧ m.2.index.blank = d.index.blank ∧ m.1 = d.index.moves old new ∧
      (m.1 = true → m.2.index.Sound (Function.update s.source h none)) ∧
      (m.1 = false → m.2.index = d.index) := by
  obtain ⟨hmark, hdesc, hindex⟩ := hl
  have hstands := hs.stands d hd
  dsimp only at hmark hdesc hindex
  cases hmoves : d.index.moves old new with
  | true =>
    rw [hmoves, if_pos rfl] at hindex
    obtain ⟨j, hj, hsound, hb⟩ :=
      (hs.sound d hd).remove hstands.reads (hs.conforms hh) hh
    obtain rfl := Except.ok.inj (hindex.symm.trans hj)
    refine ⟨hstands.congr hdesc hb, hb, hmark.trans hmoves, fun _ => hsound, fun hm => ?_⟩
    rw [hmark, hmoves] at hm
    cases hm
  | false =>
    rw [hmoves, if_neg Bool.false_ne_true] at hindex
    have hb : m.2.index.blank = d.index.blank := by rw [hindex]
    refine ⟨hstands.congr hdesc hb, hb, hmark.trans hmoves, fun hm => ?_, fun _ => hindex⟩
    rw [hmark, hmoves] at hm
    cases hm

theorem exists_lift : ∃ lifted,
    lift h old (s.indices.map fun d => (d.index.moves old new, d)) = .ok lifted ∧
    List.Forall₂ (fun d m => d ∈ s.indices ∧ Lost h old (d.index.moves old new, d) m)
      s.indices lifted := by
  refine Checked.exists_mapM_of_forall₂ (r := fun d m => m = (d.index.moves old new, d)) ?_ ?_
  · exact List.forall₂_map_right_iff.2 (List.forall₂_same.2 fun _ _ => rfl)
  · rintro d hd _ rfl
    cases hmoves : d.index.moves old new with
    | true =>
      obtain ⟨j, hj, _⟩ := (hs.sound d hd).remove (hs.stands d hd).reads (hs.conforms hh) hh
      exact ⟨(true, { d with index := j }), by simp [hj], hd, rfl, rfl, hj⟩
    | false => exact ⟨(false, d), rfl, hd, rfl, rfl, rfl⟩

include hn

theorem changed_spec (hd : d ∈ s.indices) (hl : Lost h old (d.index.moves old new, d) m)
    (ht : Took (Function.update s.source h (some new)) h new m d') :
    d'.Stands s.shape ∧ d'.index.Sound (Function.update s.source h (some new)) := by
  obtain ⟨hstands, hb, hmark, hsound, hsame⟩ := lost_spec hs hh hd hl
  obtain ⟨hdesc, hadd⟩ := ht
  cases hm : m.1 with
  | true =>
    rw [hm, if_pos rfl] at hadd
    obtain ⟨hnew, hnb⟩ := sound_of_add (conforms_erase hs.conforms) (Function.update_self _ _ _) hn
      (update_off _ _ _ _) hstands.reads (hsound hm) hadd
    rw [Function.update_idem] at hnew
    exact ⟨hstands.congr hdesc hnb, hnew⟩
  | false =>
    rw [hm, if_neg Bool.false_ne_true, hsame hm] at hadd
    refine ⟨hstands.congr hdesc (by rw [hadd, hb]), ?_⟩
    rw [hadd]
    exact (hs.sound d hd).change (hs.stands d hd).reads hh hn (hmark ▸ hm)

/-- An index that was left as it was, or let go again of what it took, can be put back in order. -/
theorem restored_spec (hd : d ∈ s.indices) (hl : Lost h old (d.index.moves old new, d) m)
    (hu : Undid (Function.update s.source h (some new)) h new m d') :
    (m.1 = false → d'.Stands s.shape ∧ d'.index = d.index) ∧ (m.1 = true →
      ∃ j, d'.index.add s.source h old = .ok (.ok j) ∧ j.Sound s.source ∧
        { d' with index := j }.Stands s.shape) := by
  obtain ⟨hstands, hb, hmark, hsound, hsame⟩ := lost_spec hs hh hd hl
  refine ⟨fun hm => ?_, fun hm => ?_⟩
  · obtain ⟨hdesc, hindex | ⟨hm', _⟩⟩ := hu
    · exact ⟨hstands.congr hdesc (by rw [hindex]), hindex.trans (hsame hm)⟩
    · rw [hm] at hm'
      cases hm'
  · obtain ⟨hlifted, hd'⟩ := sound_of_undid (conforms_erase hs.conforms) (Function.update_self _ _ _)
      hn (update_off _ _ _ _) hu hstands (hsound hm)
    have hold := hs.conforms hh
    have hoff : ∀ k ≠ h, s.source k = Function.update s.source h none k := fun k hk =>
      (Function.update_of_ne hk _ _).symm
    obtain ⟨result, hadd, hresult⟩ := hlifted.add hd'.reads (conforms_erase hs.conforms)
      (Function.update_self _ _ _) hold (hlifted.eqOn_handles (Function.update_self _ _ _) hoff)
    have hblank : d'.index.blank = d.index.blank := by
      have hbuilt := hd'.built
      obtain ⟨hdesc, _⟩ := hu
      rw [hdesc, hstands.built, Except.ok.injEq] at hbuilt
      exact hbuilt.symm.trans hb
    cases result with
    | error why =>
      -- The old entry was admitted beside the same entries before.
      exact absurd (((hs.sound d hd).admitted h old hh).congr hblank fun k hk =>
        Function.update_of_ne hk _ _) hresult
    | ok j =>
      obtain ⟨_, hj, hjb⟩ := hresult
      have hback : Function.update (Function.update s.source h none) h (some old) = s.source := by
        rw [Function.update_idem, ← hh, Function.update_eq_self]
      exact ⟨j, hadd, hback ▸ hj, hd'.with_index hjb⟩

theorem markAffected_eq : markAffected old new s.indices =
    .ok (s.indices.map fun d => (d.index.moves old new, d)) :=
  Checked.mapM_eq_map fun d hd => by
    rw [Index.isAffected_eq (hs.stands d hd).reads (hs.conforms hh) hn]
    rfl

/-- What a change of an entry has to answer: no index is left behind when it succeeds, and nothing
that the handles reach is changed when it is refused. -/
def Moved (s : Store) (h : Handle) (old new : Entry) : Option Error → Store → Prop
  | none, t => t.source = Function.update s.source h (some new)
  | some _, t => t.slab = s.slab ∧
      List.Forall₂ (fun d d' => d ∈ s.indices ∧ Restored s.source h old new d d') s.indices t.indices

theorem exists_putBack {placed : List Declared} (hall : List.Forall₂ (fun d p => ∃ m,
      (d ∈ s.indices ∧ Lost h old (d.index.moves old new, d) m) ∧
      Undid (Function.update s.source h (some new)) h new m p) s.indices placed) :
    ∃ restored, putBack s.source h old
      (((s.indices.map fun d => (d.index.moves old new, d)).map Prod.fst).zip placed) =
        .ok restored ∧
      List.Forall₂ (fun d d' => d ∈ s.indices ∧ Restored s.source h old new d d' ∧
        d'.Stands s.shape ∧ d'.index.Sound s.source) s.indices restored := by
  rw [List.map_map]
  refine Checked.exists_mapM_of_forall₂ (Checked.forall₂_zip _ hall) ?_
  rintro d hd ⟨mark, p⟩ ⟨hmark, m, ⟨_, hl⟩, hu⟩
  obtain ⟨hstay, hmove⟩ := restored_spec hs hh hn hd hl hu
  obtain ⟨hm, hdesc, hlifted⟩ := hl
  have hdesc : p.descriptor = d.descriptor := hu.1.trans hdesc
  dsimp only [Function.comp] at hmark hm hlifted hu
  cases hmoves : d.index.moves old new with
  | false =>
    rw [hmoves] at hmark hm
    obtain ⟨hstands, hsame⟩ := hstay hm
    refine ⟨p, by simp [hmark], hd, ⟨hdesc, ?_⟩, hstands, ?_⟩
    · rw [hmoves]
      exact hsame
    · rw [hsame]
      exact hs.sound d hd
  | true =>
    rw [hmoves] at hmark hm hlifted
    obtain ⟨j, hadd, hsound, hstands⟩ := hmove hm
    refine ⟨{ p with index := j }, by simp [hmark, hadd], hd, ⟨hdesc, ?_⟩, hstands, hsound⟩
    rw [hmoves]
    exact ⟨m.2.index, p.index, hlifted, hu.2.imp_right fun hundid => hundid.2, hadd⟩

/-- A change places the handle in the indices where the entry moves, once it is lifted there; if it
is refused the slab is as before. -/
theorem move_eq : s.move h old new = (do
    let lifted ← lift h old (s.indices.map fun d => (d.index.moves old new, d))
    match ← place (Function.update s.source h (some new)) h new 0 lifted with
    | (none, indices) => return (none, { s with indices, slab := s.slab.replace h new })
    | (some refusal, indices) =>
      let marks := (s.indices.map fun d => (d.index.moves old new, d)).map Prod.fst
      let indices ← putBack s.source h old (marks.zip indices)
      return (some refusal, { s with indices })) := by
  have hx : s.slab.get? h = some old := hh
  obtain ⟨_, hget⟩ := Slab.replace_sound hs.slab hx new
  have hget : (s.slab.replace h new).get? = Function.update s.source h (some new) := hget
  have hafter : (s.slab.replace h new).get? h = some new := by rw [hget, Function.update_self]
  have hback : (s.slab.replace h new).replace h old = s.slab := Slab.replace_replace hs.slab hx new
  rw [move, hafter]
  dsimp only
  rw [markAffected_eq hs hh hn, Checked.ok_bind, hget, hback]
  rfl

/-- What became of a change of an entry: either every index in which the entry moves let the handle
go and took it under the new version, or it was refused and all indices were put back in order. -/
inductive Movement (s : Store) (h : Handle) (old new : Entry) : Option Error × Store → Prop
  | taken {placed : List Declared} :
    List.Forall₂ (fun d d' => ∃ m, (d ∈ s.indices ∧ Lost h old (d.index.moves old new, d) m) ∧
      Took (Function.update s.source h (some new)) h new m d') s.indices placed →
    Movement s h old new (none, { s with indices := placed, slab := s.slab.replace h new })
  | undone {refusal : Error} {restored : List Declared} :
    List.Forall₂ (fun d d' => d ∈ s.indices ∧ Restored s.source h old new d d' ∧
      d'.Stands s.shape ∧ d'.index.Sound s.source) s.indices restored →
    Movement s h old new (some refusal, { s with indices := restored })

theorem exists_movement : ∃ out, s.move h old new = .ok out ∧ s.Movement h old new out := by
  obtain ⟨lifted, hlift, hlost⟩ := exists_lift hs hh
  have hanswers : ∀ m ∈ lifted, m.1 = true →
      Answers (Function.update s.source h (some new)) h new m.2 := by
    intro m hm hmark
    obtain ⟨d, _, hd, hl⟩ := Checked.exists_of_mem_right hlost hm
    obtain ⟨hstands, _, _, hsound, _⟩ := lost_spec hs hh hd hl
    exact answers_of_sound (conforms_erase hs.conforms) (Function.update_self _ _ _) hn
      (update_off _ _ _ _) hstands (hsound hmark)
  obtain ⟨⟨refusal, placed⟩, hplace, hplaces⟩ := place_spec hanswers 0
  cases refusal with
  | none =>
    have hall := Checked.forall₂_trans hlost (show List.Forall₂ _ lifted placed from hplaces)
    exact ⟨_, by simp [move_eq hs hh hn, hlift, hplace], .taken hall⟩
  | some refusal =>
    obtain ⟨hundid, _⟩ := hplaces
    obtain ⟨restored, hput, hrestored⟩ :=
      exists_putBack hs hh hn (Checked.forall₂_trans hlost hundid)
    rw [List.map_map] at hput
    exact ⟨(some refusal, _), by simp [move_eq hs hh hn, hlift, hplace, hput], .undone hrestored⟩

theorem move_spec : ∃ refusal t, s.move h old new = .ok (refusal, t) ∧ t.Invariant ∧
    t.shape = s.shape ∧ t.descriptors = s.descriptors ∧ Moved s h old new refusal t := by
  obtain ⟨_, hmove, hcase⟩ := exists_movement hs hh hn
  cases hcase with
  | @taken placed hall =>
    have hx : s.slab.get? h = some old := hh
    obtain ⟨hslab, hget⟩ := Slab.replace_sound hs.slab hx new
    have hget : (s.slab.replace h new).get? = Function.update s.source h (some new) := hget
    let t : Store := { s with indices := placed, slab := s.slab.replace h new }
    have hdesc : t.descriptors = s.descriptors :=
      Checked.map_eq_of_forall₂ hall fun d d' ⟨m, hl, htook⟩ => htook.1.trans hl.2.2.1
    refine ⟨none, t, hmove, ?_, rfl, hdesc, hget⟩
    refine hs.of_indices (t := t) hslab rfl ?_ (fun d' hd' => ?_) hdesc
    · change Source.Conforms (s.slab.replace h new).get? s.shape
      exact hget ▸ conforms_update hs.conforms hn
    · obtain ⟨d, _, m, ⟨hd, hl⟩, htook⟩ := Checked.exists_of_mem_right hall hd'
      obtain ⟨hstands, hsound⟩ := changed_spec hs hh hn hd hl htook
      refine ⟨hstands, ?_⟩
      change d'.index.Sound (s.slab.replace h new).get?
      exact hget ▸ hsound
  | @undone refusal restored hrestored =>
    let t : Store := { s with indices := restored }
    have hdesc : t.descriptors = s.descriptors :=
      Checked.map_eq_of_forall₂ hrestored fun d d' hd => hd.2.1.1
    refine ⟨some refusal, t, hmove, ?_, rfl, hdesc, rfl, hrestored.imp fun d d' hd => ⟨hd.1, hd.2.1⟩⟩
    refine hs.of_indices (t := t) hs.slab rfl hs.conforms (fun d' hd' => ?_) hdesc
    obtain ⟨d, _, _, _, hstands, hsound⟩ := Checked.exists_of_mem_right hrestored hd'
    exact ⟨hstands, hsound⟩

end Change

end IndexedStore.Store
