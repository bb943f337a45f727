import IndexedStore.Proofs.Acceptance

/-!
# Updates of a slice

An update of everything that a probe visits goes through the handles visited before the first entry
changes. So each of them is updated once, in that order, from the entry it had before, wherever the
updates move the entries in the index meanwhile. At the first refusal those before are updated, and
nothing else is.
-/
namespace IndexedStore.Store

variable {s t u : Store} {h : Handle} {old e probe : Entry} {slot count : Nat}

/-- What becomes of a live entry under a mutation that may fault on other entries. -/
theorem update_held {ρ : Type} {mutate : Entry → Checked (Entry × ρ)}
    {answer : Except Error (Option ρ)} (hs : s.Invariant) (hm : KeepsTypes mutate)
    (hh : s.source h = some old) (hupdate : s.update h mutate = .ok (answer, t)) :
    s.Keeps t ∧ ∃ new result, mutate old = .ok (new, result) ∧
      (answer = .ok (some result) ∧ t.source = Function.update s.source h (some new) ∨
      ∃ err, answer = .error err ∧ t.source = s.source) := by
  have hentry : s.entry? h = some old := hh
  cases hnew : mutate old with
  | error fault =>
    rw [update, hentry] at hupdate
    dsimp only at hupdate
    rw [hnew] at hupdate
    cases hupdate
  | ok pair =>
    obtain ⟨new, result⟩ := pair
    have htotal : Total (s.entry? h = some ·) mutate := by
      intro e he
      obtain rfl := Option.some.inj (hentry.symm.trans he)
      exact ⟨new, result, hnew, hm old new result (hs.conforms hh).typed hnew⟩
    obtain ⟨answer', t', hupdate', hkeeps, _⟩ := update_spec hs htotal
    obtain ⟨rfl, rfl⟩ : answer = answer' ∧ t = t' := by simpa using hupdate.symm.trans hupdate'
    refine ⟨hkeeps, new, result, rfl, ?_⟩
    obtain ⟨hanswer, _, hsource⟩ | ⟨err, hanswer, _, hsource⟩ := update_live hs htotal hh hnew hupdate
    · exact .inl ⟨hanswer, hsource⟩
    · exact .inr ⟨err, hanswer, hsource⟩

variable {σ : Type} {mutate : σ → Entry → Checked (Entry × σ)} {state : σ}
  {hits : List (Handle × Entry)} {answer : Except Error (Nat × σ)}

def mutateAll (mutate : σ → Entry → Checked (Entry × σ)) :
    σ → List Entry → Checked (List Entry × σ)
  | state, [] => .ok ([], state)
  | state, e :: rest => do
    let (new, state) ← mutate state e
    let (news, state) ← mutateAll mutate state rest
    return (new :: news, state)

/-- Some handles hold other entries, and every other handle holds what it held before. -/
structure Replaces (s t : Store) (handles : List Handle) (news : List Entry) : Prop where
  changed : List.Forall₂ (fun h new => t.entry? h = some new) handles news
  kept : ∀ h ∉ handles, t.entry? h = s.entry? h

/-- What an update of some handles with their entries has to answer, counting from a number, and the
store it leaves. -/
def UpdatesAll (s : Store) (mutate : σ → Entry → Checked (Entry × σ)) (count : Nat) (state : σ)
    (hits : List (Handle × Entry)) : Except Error (Nat × σ) → Store → Prop
  | .ok (n, last), t => n = count + hits.length ∧ ∃ news,
      mutateAll mutate state (hits.map Prod.snd) = .ok (news, last) ∧
      s.Replaces t (hits.map Prod.fst) news
  | .error err, t => ∃ done failed rest news next u, hits = done ++ failed :: rest ∧
      mutateAll mutate state (done.map Prod.snd) = .ok (news, next) ∧
      s.Replaces t (done.map Prod.fst) news ∧
      updateAll mutate (done.map Prod.fst) count state s =
        .ok (.ok (count + done.length, next), u) ∧
      u.update failed.1 (mutate next) = .ok (.error err, t)

theorem mutateAll_cons {new : Entry} {next last : σ} {es news : List Entry}
    (hnew : mutate state e = .ok (new, next)) (hrest : mutateAll mutate next es = .ok (news, last)) :
    mutateAll mutate state (e :: es) = .ok (new :: news, last) := by
  rw [mutateAll, hnew, Checked.ok_bind]
  dsimp only
  rw [hrest]
  rfl

theorem Replaces.refl (s : Store) : s.Replaces s [] [] := ⟨.nil, fun _ _ => rfl⟩

theorem Replaces.cons {new : Entry} {handles : List Handle} {news : List Entry}
    (ht : t.source = Function.update s.source h (some new)) (hu : t.Replaces u handles news)
    (hh : h ∉ handles) : s.Replaces u (h :: handles) (new :: news) where
  changed := by
    refine .cons ((hu.kept h hh).trans ?_) hu.changed
    change t.source h = _
    rw [ht, Function.update_self]
  kept k hk := by
    have hne : k ≠ h := fun he => hk (he ▸ List.mem_cons_self)
    refine (hu.kept k fun hm => hk (List.mem_cons_of_mem _ hm)).trans ?_
    change t.source k = s.source k
    rw [ht, Function.update_of_ne hne]

theorem UpdatesAll.cons {new : Entry} {next : σ} (hnew : mutate state e = .ok (new, next))
    (hupdate : s.update h (mutate state) = .ok (.ok (some next), t))
    (ht : t.source = Function.update s.source h (some new)) (hh : h ∉ hits.map Prod.fst)
    (hrest : t.UpdatesAll mutate (count + 1) next hits answer u) :
    s.UpdatesAll mutate count state ((h, e) :: hits) answer u := by
  cases answer with
  | ok answer =>
    obtain ⟨hcount, news, hmutate, hreplaces⟩ := hrest
    refine ⟨?_, new :: news, mutateAll_cons hnew hmutate, hreplaces.cons ht hh⟩
    rw [hcount, List.length_cons]
    omega
  | error err =>
    obtain ⟨done, failed, rest, news, last, v, rfl, hmutate, hreplaces, hdone, hfailed⟩ := hrest
    have hh' : h ∉ done.map Prod.fst := fun hm =>
      hh (List.map_append ▸ List.mem_append_left _ hm)
    refine ⟨(h, e) :: done, failed, rest, new :: news, last, v, rfl,
      mutateAll_cons hnew hmutate, hreplaces.cons ht hh', ?_, hfailed⟩
    rw [List.map_cons, updateAll, hupdate, Checked.ok_bind]
    dsimp only
    rw [hdone, List.length_cons, Nat.add_assoc, Nat.add_comm 1]

theorem updateAll_once (hs : s.Invariant) (hm : ∀ state, KeepsTypes (mutate state))
    (hn : (hits.map Prod.fst).Nodup) (hh : ∀ hit ∈ hits, s.source hit.1 = some hit.2)
    (hupdate : updateAll mutate (hits.map Prod.fst) count state s = .ok (answer, t)) :
    s.UpdatesAll mutate count state hits answer t := by
  induction hits generalizing s count state with
  | nil =>
    obtain ⟨rfl, rfl⟩ : .ok (count, state) = answer ∧ s = t := by simpa [updateAll] using hupdate
    exact ⟨rfl, [], rfl, .refl s⟩
  | cons hit rest ih =>
    obtain ⟨h, e⟩ := hit
    obtain ⟨hfresh, hn⟩ := List.nodup_cons.1 hn
    obtain ⟨hlive, hh⟩ := List.forall_mem_cons.1 hh
    rw [List.map_cons, updateAll] at hupdate
    obtain ⟨⟨first, s'⟩, hfirst, hupdate⟩ := Checked.bind_eq_ok.1 hupdate
    obtain ⟨hkeeps, new, next, hnew, hcase⟩ := update_held hs (hm state) hlive hfirst
    obtain ⟨rfl, hsource⟩ | ⟨err, rfl, hsource⟩ := hcase
    · refine UpdatesAll.cons hnew hfirst hsource hfresh
        (ih hkeeps.invariant hn (fun hit hm => ?_) hupdate)
      have hne : hit.1 ≠ h := by
        rintro rfl
        exact hfresh (List.mem_map.2 ⟨hit, hm, rfl⟩)
      rw [hsource, Function.update_of_ne hne, hh hit hm]
    · obtain ⟨rfl, rfl⟩ : .error err = answer ∧ s' = t := by simpa using hupdate
      exact ⟨[], (h, e), rest, [], state, s, rfl, rfl, ⟨.nil, fun k _ => congrFun hsource k⟩, rfl,
        hfirst⟩

/-- In every store that a run leads to, an update of a slice updates each entry visited before the
call once, in that order, or else those before the first that is refused. -/
theorem sliceUpdate_once (hr : s.Reachable) (hp : probe.Conforms s.shape)
    (hslot : slot < s.indices.length) (hm : ∀ state, KeepsTypes (mutate state)) (state : σ) :
    ∃ hits, s.slice slot probe = .ok hits ∧ (hits.map Prod.fst).Nodup ∧
      (∀ hit ∈ hits, s.entry? hit.1 = some hit.2) ∧
      (∀ answer t, s.sliceUpdate slot probe state mutate = .ok (answer, t) →
        s.UpdatesAll mutate 0 state hits answer t) ∧
      ((∀ state, Total (Entry.Conforms · s.shape) (mutate state)) →
        ∃ answer t, s.sliceUpdate slot probe state mutate = .ok (answer, t)) := by
  have hs := hr.invariant
  have hd := List.getElem?_eq_getElem hslot
  obtain ⟨hits, hslice, hhandles, hitems⟩ := exists_slice_handles hs hp hd
  have hn : (hits.map Prod.fst).Nodup :=
    hhandles ▸ (hs.sound _ (List.getElem_mem hslot)).nodup_hits probe
  refine ⟨hits, hslice, hn, hitems, fun answer t hupdate => ?_, fun htotal => ?_⟩
  · rw [sliceUpdate, hslice, Checked.ok_bind] at hupdate
    exact updateAll_once hs hm hn hitems hupdate
  · obtain ⟨answer, t, hupdate, _⟩ := sliceUpdate_spec hs hp hslot htotal state
    exact ⟨answer, t, hupdate⟩

/-- Writes a number to the first position, takes one from the second, and passes on a greater
number. -/
def renumber (n : Int32) (e : Entry) : Checked (Entry × Int32) := do
  let (left, _) ← Edit.applyAll [.set 1 (.int n), .accumulate .minus 2 (.int 1)] e
  return (left, n + 4)

theorem keepsTypes_renumber (n : Int32) : KeepsTypes (renumber n) := by
  intro e new last he hnew
  obtain ⟨⟨left, outcomes⟩, hall, hnew⟩ := Checked.bind_eq_ok.1 hnew
  obtain ⟨rfl, -⟩ := Prod.mk.inj (Except.ok.inj hnew)
  exact keepsTypes_applyAll (by simp [Edit.Brings]) e left outcomes he hall

theorem total_renumber (n : Int32) : Total (Entry.Conforms · ⟨[.int, .int]⟩) (renumber n) := by
  intro e he
  have hedits : ∀ edit ∈ [Edit.set 1 (.int n), .accumulate .minus 2 (.int 1)],
      edit.Fits ⟨[.int, .int]⟩ := by
    simp only [List.forall_mem_cons, List.not_mem_nil, false_imp_iff, implies_true, and_true]
    exact ⟨⟨nofun, rfl⟩, nofun, rfl, rfl⟩
  obtain ⟨left, outcomes, hall, hleft⟩ := total_applyAll hedits e he
  exact ⟨left, n + 4, by rw [renumber, hall]; rfl, hleft⟩

/-- The second of two updates leaves the bounds; the first one is done. -/
theorem sliceUpdate_once_of_grid : ∃ s hits t, Reachable s ∧
    (Entry.blank ⟨[.int, .int]⟩).Conforms s.shape ∧ 0 < s.indices.length ∧
    (∀ n, KeepsTypes (renumber n)) ∧ (∀ n, Total (Entry.Conforms · s.shape) (renumber n)) ∧
    s.slice 0 (.blank ⟨[.int, .int]⟩) = .ok hits ∧
    hits = [(⟨0, 0⟩, samplePair 1 10), (⟨1, 0⟩, samplePair 2 20)] ∧
    s.sliceUpdate 0 (.blank ⟨[.int, .int]⟩) 3 renumber =
      .ok (.error (.keyOutOfBounds 1 [.int 7]), t) ∧
    s.UpdatesAll renumber 0 3 hits (.error (.keyOutOfBounds 1 [.int 7])) t ∧
    t.entry? ⟨0, 0⟩ = some (samplePair 3 9) ∧ t.entry? ⟨1, 0⟩ = some (samplePair 2 20) := by
  obtain ⟨s, hs⟩ : ∃ s, create ⟨[.int, .int]⟩ gridLayout = .ok s := ⟨_, rfl⟩
  obtain ⟨t, ht⟩ : ∃ t, run (gridPairs.map .insert) s = .ok t := by
    obtain rfl := Except.ok.inj hs
    exact ⟨_, rfl⟩
  have hr : Reachable t := .filled hs (by decide) (by decide) ht
  have hfacts : t.shape = ⟨[.int, .int]⟩ ∧ (Entry.blank ⟨[.int, .int]⟩).Conforms t.shape ∧
      0 < t.indices.length ∧ t.slice 0 (.blank ⟨[.int, .int]⟩) =
        .ok [(⟨0, 0⟩, samplePair 1 10), (⟨1, 0⟩, samplePair 2 20)] := by
    obtain rfl := Except.ok.inj hs
    obtain rfl := Except.ok.inj ht
    exact ⟨rfl, ⟨rfl, rfl⟩, by decide, rfl⟩
  obtain ⟨hshape, hp, hslot, hslice⟩ := hfacts
  have htotal : ∀ n, Total (Entry.Conforms · t.shape) (renumber n) := hshape ▸ total_renumber
  obtain ⟨hits, hslice', _, _, honce, hanswers⟩ := sliceUpdate_once hr hp hslot keepsTypes_renumber 3
  obtain rfl := Except.ok.inj (hslice'.symm.trans hslice)
  obtain ⟨answer, u, hupdate⟩ := hanswers htotal
  have hfacts : answer = .error (.keyOutOfBounds 1 [.int 7]) ∧
      u.entry? ⟨0, 0⟩ = some (samplePair 3 9) ∧ u.entry? ⟨1, 0⟩ = some (samplePair 2 20) := by
    obtain rfl := Except.ok.inj hs
    obtain rfl := Except.ok.inj ht
    obtain ⟨rfl, rfl⟩ := Prod.mk.inj (Except.ok.inj hupdate)
    exact ⟨rfl, rfl, rfl⟩
  obtain ⟨rfl, hfirst, hsecond⟩ := hfacts
  exact ⟨t, _, u, hr, hp, hslot, keepsTypes_renumber, htotal, hslice, rfl, hupdate,
    honce _ _ hupdate, hfirst, hsecond⟩

end IndexedStore.Store
