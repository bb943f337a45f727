import IndexedStore.Proofs.IndexHistories

/-!
# Runs of single indices

A run adds handles that an index does not hold, removes handles under the entries they were placed
under, and clears the index, all in place. A refused addition leaves no trace. What was placed and
not removed since is what the index holds, each handle where it belongs.
-/
namespace IndexedStore

namespace KeyRows

variable {r : KeyRows} {source : Source} {h : Handle} {e : Entry} {key : Key}

section Opened

variable (hf : r.Filed source)
include hf

theorem row_opened (key : Key) : (r.opened key).row key = r.row key := by
  rw [row, opened, OrderedTable.find?_alter hf.ascending, if_pos Std.ReflCmp.compare_self]
  rfl

theorem opened_push : (r.opened key).push key h = r.push key h := by
  have hput : OrderedTable.put Key.compare key (r.row key ++ [h]) (r.opened key).rows =
      OrderedTable.put Key.compare key (r.row key ++ [h]) r.rows :=
    OrderedTable.alter_alter hf.ascending fun _ => rfl
  rw [push, push, row_opened hf, hput]
  rfl

theorem opened_eq_self (hne : r.row key ≠ []) : r.opened key = r := by
  have hrows : (r.opened key).rows = r.rows := by
    refine OrderedTable.alter_eq_self hf.ascending ?_
    rw [row] at hne
    cases hrow : OrderedTable.find? Key.compare key r.rows with
    | none =>
      rw [hrow] at hne
      exact absurd rfl hne
    | some items => rfl
  obtain ⟨_, _, rows, _, _⟩ := r
  exact congrArg (fun rows => KeyRows.mk _ _ rows _ _) hrows

/-- An addition in place leaves no trace if it is refused. -/
theorem addInPlace_eq (hfit : r.projection.Fits e) : r.addInPlace h e = .ok
    (match r.rival? h e with
      | some rival => (some (.duplicateKey rival), r)
      | none => (none, r.push (r.projection.keyOf e) h)) := by
  rw [addInPlace, Projection.project_eq hfit, Checked.ok_bind, rival?]
  dsimp only
  rw [row_opened hf, opened_push hf]
  have hunique : (r.opened (r.projection.keyOf e)).unique = r.unique := rfl
  rw [hunique]
  cases hu : r.unique with
  | false => rfl
  | true =>
    cases hrival : (r.row (r.projection.keyOf e)).find? (· ≠ h) with
    | none => rfl
    | some rival =>
      rw [opened_eq_self hf (List.ne_nil_of_mem (List.mem_of_find?_eq_some hrival))]
      rfl

end Opened

end KeyRows

namespace Index

variable {i j : Index} {source after : Source} {shape : Shape} {h : Handle} {e : Entry}

def outcome (i : Index) : Except Rejection Index → Option Rejection × Index
  | .ok taken => (none, taken)
  | .error why => (some why, i)

theorem addInPlace_eq (hf : i.Filed source) (hfit : i.projection.Fits e) :
    i.addInPlace after h e = i.outcome <$> i.add after h e := by
  cases i with
  | tree r =>
    rw [Index.add, Index.addInPlace, KeyRows.add_eq hfit, KeyRows.addInPlace_eq hf hfit]
    cases r.rival? h e <;> rfl
  | list | hash | array | heap =>
    rw [Index.addInPlace]
    · cases Index.add after h e _ with
      | error fault => rfl
      | ok answer => cases answer <;> rfl
    · exact fun _ h => Index.noConfusion h

theorem exists_add (hr : i.Reads shape) (hsource : after.Conforms shape) (he : e.Conforms shape) :
    ∃ answer, i.add after h e = .ok answer := by
  have hfit := hr.fits he
  cases i with
  | list l => exact ⟨_, rfl⟩
  | hash c =>
    obtain ⟨answer, hadd⟩ := HashChains.exists_add (h := h) hfit fun k x hx => hr.fits (hsource hx)
    exact ⟨answer.map hash, by rw [Index.add, hadd]; rfl⟩
  | tree r => exact ⟨_, by rw [Index.add, KeyRows.add_eq hfit]; rfl⟩
  | array g => exact ⟨_, by rw [Index.add, AddressGrid.add_eq hfit]; rfl⟩
  | heap g => exact ⟨_, by rw [Index.add, GroupHeaps.add_eq (hr.heap he)]; rfl⟩

/-! ## Actions in place -/

/-- Whether an action did what it should, and the index that it leaves. -/
def perform (i : Index) : Action → Checked (Bool × Index)
  | .change source (.add h e) => do
    let (refusal, left) ← i.addInPlace source h e
    return (refusal.isNone, left)
  | .change _ (.remove h e) => do
    match ← i.remove? h e with
    | some left => return (true, left)
    | none => return (false, i)
  | .clear => return (true, i.clear)

end Index

def Arrivals.follow (placed : Arrivals) (taken : Bool) : Index.Action → Arrivals
  | .change _ (.add h e) => if taken then placed.change (.add h e) else placed
  | .change _ (.remove h e) => placed.change (.remove h e)
  | .clear => []

namespace Index

/-- A handle is added that is not held, and removed under the entry it was placed under, if it is
held. All entries are of one shape. -/
def Action.Ready (shape : Shape) (placed : Arrivals) : Action → Prop
  | .change source (.add h e) => source.Conforms shape ∧ e.Conforms shape ∧ h ∉ placed.handles
  | .change _ (.remove h e) => e.Conforms shape ∧ ∀ item ∈ placed, item.1 = h → item.2 = e
  | .clear => True

/-- An index holds the handles that are placed, each once and where it belongs. -/
structure Carries (shape : Shape) (placed : Arrivals) (i : Index) : Prop where
  reads : i.Reads shape
  filed : i.Filed placed.known
  nodup : placed.handles.Nodup
  perm : i.handles.Perm placed.handles

inductive Performed (placed : Arrivals) (i : Index) : Action → Bool → Index → Prop
  | added {source : Source} {h : Handle} {e : Entry} {j : Index} (added : Added h e i j) :
    Performed placed i (.change source (.add h e)) true j
  | refused {source : Source} {h : Handle} {e : Entry} :
    Performed placed i (.change source (.add h e)) false i
  | removed {source : Source} {h : Handle} {e : Entry} {j : Index} (held : (h, e) ∈ placed)
    (removal : i.remove? h e = .ok (some j)) (removed : Removed h e i j) :
    Performed placed i (.change source (.remove h e)) true j
  | missed {source : Source} {h : Handle} {e : Entry} (missing : h ∉ placed.handles) :
    Performed placed i (.change source (.remove h e)) false i
  | cleared : Performed placed i .clear true i.clear

variable {i j : Index} {placed : Arrivals} {source : Source} {shape : Shape} {h : Handle}
  {e : Entry} {a : Action} {answer : Bool}

theorem Carries.of_empty (hempty : i.blank = i) (hr : i.Reads shape) : i.Carries shape [] :=
  ⟨hr, hempty ▸ blank_filed, List.nodup_nil, by rw [← hempty, handles_blank]; exact .nil⟩

theorem Carries.clear (hi : i.Carries shape placed) : i.clear.Carries shape [] :=
  ⟨hi.reads.congr clear_blank, clear_filed, List.nodup_nil, by rw [handles_clear]; exact .nil⟩

theorem Carries.mem_handles_iff (hi : i.Carries shape placed) :
    h ∈ i.handles ↔ ∃ e, (h, e) ∈ placed := by
  rw [hi.perm.mem_iff, Arrivals.handles, List.mem_map]
  constructor
  · rintro ⟨item, hm, rfl⟩
    exact ⟨item.2, hm⟩
  · rintro ⟨e, hm⟩
    exact ⟨(h, e), hm, rfl⟩

theorem Carries.length_placed (hi : i.Carries shape placed) : placed.length = i.handles.length := by
  rw [hi.perm.length_eq, Arrivals.handles, List.length_map]

theorem Carries.added (hi : i.Carries shape placed) (hh : h ∉ placed.handles)
    (he : e.Conforms shape) (hadded : Added h e i j) :
    j.Carries shape (placed.change (.add h e)) ∧ j.blank = i.blank := by
  have hfresh : h ∉ i.handles := fun hm => hh (hi.perm.mem_iff.1 hm)
  obtain ⟨hblank, hfiled, hperm⟩ := hadded.filed hi.filed hi.reads hfresh he
  have hplaced : (placed.change (.add h e)).handles.Perm (h :: placed.handles) := by
    rw [Arrivals.change, Arrivals.handles, List.map_append]
    exact List.perm_append_singleton _ _
  refine ⟨⟨hi.reads.congr hblank, ?_, ?_, ?_⟩, hblank⟩
  · rw [Arrivals.change, Arrivals.known_append hh]
    exact hfiled
  · exact hplaced.nodup_iff.2 (List.nodup_cons.2 ⟨hh, hi.nodup⟩)
  · exact hperm.trans ((hi.perm.cons h).trans hplaced.symm)

theorem Carries.removed (hi : i.Carries shape placed) (he : e.Conforms shape)
    (hm : (h, e) ∈ placed) : ∃ j, i.remove? h e = .ok (some j) ∧ Removed h e i j ∧
      j.Carries shape (placed.change (.remove h e)) ∧ j.blank = i.blank := by
  have hh : h ∈ i.handles := hi.perm.mem_iff.2 (List.mem_map_of_mem hm)
  have hknown := (Arrivals.known_eq_some_iff hi.nodup).2 hm
  obtain ⟨j, hremove, hremoved, hblank, hfiled, hperm⟩ := hi.filed.remove? hi.reads he hknown hh
  have hplaced := Arrivals.handles_remove (e := e) (h := h) hi.nodup
  refine ⟨j, hremove, hremoved,
    ⟨hi.reads.congr hblank, ?_, hplaced ▸ hi.nodup.erase h, ?_⟩, hblank⟩
  · rw [Arrivals.change, Arrivals.known_remove]
    refine hfiled.of_eqOn fun k hk => Function.update_of_ne ?_ _ _
    rintro rfl
    exact (hi.perm.nodup_iff.2 hi.nodup).not_mem_erase (hperm.mem_iff.1 hk)
  · rw [hplaced]
    exact hperm.trans (hi.perm.erase h)

/-- Every action that is ready has an outcome, after which the index holds what it should. -/
theorem Carries.perform (hi : i.Carries shape placed) (ha : a.Ready shape placed) :
    ∃ answer j, i.perform a = .ok (answer, j) ∧ Performed placed i a answer j ∧
      j.Carries shape (placed.follow answer a) ∧ j.blank = i.blank := by
  cases a with
  | clear => exact ⟨true, i.clear, rfl, .cleared, hi.clear, clear_blank⟩
  | change source change =>
    cases change with
    | add h e =>
      obtain ⟨hsource, he, hh⟩ := ha
      have hfresh : h ∉ i.handles := fun hm => hh (hi.perm.mem_iff.1 hm)
      have hplace : i.addInPlace source h e = i.outcome <$> i.add source h e :=
        addInPlace_eq hi.filed (hi.reads.fits he)
      obtain ⟨result, hadd⟩ := exists_add (h := h) hi.reads hsource he
      rw [hadd] at hplace
      cases result with
      | error why => exact ⟨false, i, by rw [Index.perform, hplace]; rfl, .refused, hi, rfl⟩
      | ok j =>
        have hadded := hi.filed.added hi.reads hfresh he hadd
        obtain ⟨hj, hblank⟩ := hi.added hh he hadded
        exact ⟨true, j, by rw [Index.perform, hplace]; rfl, .added hadded, hj, hblank⟩
    | remove h e =>
      obtain ⟨he, hplaced⟩ := ha
      by_cases hh : h ∈ placed.handles
      · obtain ⟨⟨k, x⟩, hm, hk⟩ := List.mem_map.1 hh
        obtain rfl : k = h := hk
        obtain rfl : x = e := hplaced _ hm rfl
        obtain ⟨j, hremove, hremoved, hj, hblank⟩ := hi.removed he hm
        exact ⟨true, j, by rw [Index.perform, hremove]; rfl, .removed hm hremove hremoved, hj,
          hblank⟩
      · have hmissing : h ∉ i.handles := fun hm => hh (hi.perm.mem_iff.1 hm)
        have hremove := hi.filed.remove?_eq_none (hi.reads.fits he) hmissing
        refine ⟨false, i, by rw [Index.perform, hremove]; rfl, .missed hh, ?_, rfl⟩
        rw [Arrivals.follow, Arrivals.change_remove_of_not_mem hh]
        exact hi

/-! ## Runs -/

/-- Where a run on an index has come: what is placed by the answers so far, and how many handles
were held after each step, the latest first. -/
structure Run where
  index : Index
  placed : Arrivals
  sizes : List Nat

namespace Run

def start (i : Index) : Run := ⟨i, [], []⟩

def step (run : Run) (a : Action) : Checked Run := do
  let (answer, index) ← run.index.perform a
  let placed := run.placed.follow answer a
  return ⟨index, placed, placed.length :: run.sizes⟩

def steps (run : Run) (actions : List Action) : Checked Run := actions.foldlM step run

def Admissible (shape : Shape) : List Action → Run → Prop
  | [], _ => True
  | a :: rest, run =>
    a.Ready shape run.placed ∧ ∀ next, run.step a = .ok next → Admissible shape rest next

variable {run : Run} {actions : List Action}

/-- What every step of a run keeps holds after all of it, besides that the index holds what it
should. -/
theorem exists_steps {P : Run → Prop} (hrun : run.index.Carries shape run.placed) (hP : P run)
    (hstep : ∀ (run : Run) (a : Action) (answer : Bool) (j : Index),
      run.index.Carries shape run.placed → P run → Performed run.placed run.index a answer j →
      j.Carries shape (run.placed.follow answer a) → P ⟨j, run.placed.follow answer a,
        (run.placed.follow answer a).length :: run.sizes⟩)
    (ha : Admissible shape actions run) : ∃ last, run.steps actions = .ok last ∧
      last.index.Carries shape last.placed ∧ last.index.blank = run.index.blank ∧ P last := by
  induction actions generalizing run with
  | nil => exact ⟨run, rfl, hrun, rfl, hP⟩
  | cons a rest ih =>
    obtain ⟨hready, hrest⟩ := ha
    obtain ⟨answer, j, hperform, hperformed, hj, hblank⟩ := hrun.perform hready
    have hnext : run.step a = .ok ⟨j, run.placed.follow answer a,
        (run.placed.follow answer a).length :: run.sizes⟩ := by
      rw [step, hperform]
      rfl
    obtain ⟨last, hlast, hcarries, hsame, hPlast⟩ :=
      ih hj (hstep run a answer j hrun hP hperformed hj) (hrest _ hnext)
    exact ⟨last, by rw [steps, List.foldlM_cons, hnext]; exact hlast, hcarries,
      hsame.trans hblank, hPlast⟩

end Run

end Index
end IndexedStore
