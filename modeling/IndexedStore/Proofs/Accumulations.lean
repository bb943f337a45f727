import IndexedStore.Proofs.ValueOrder
import IndexedStore.Proofs.EntryWrites
import Mathlib.Data.List.Infix

/-!
# Accumulations

Amounts added to an integral position, and taken away from it. Each leaves the exact number, stopped
at the ends of the range of the type. As long as no number on the way leaves the range, the last one
is the first one with all amounts, in whatever order they came. The other positions stay.
-/
namespace IndexedStore

namespace FieldType

def least : FieldType → Int
  | .int => Int32.minValue.toInt
  | _ => Int64.minValue.toInt

def greatest : FieldType → Int
  | .int => Int32.maxValue.toInt
  | _ => Int64.maxValue.toInt

def Spans (t : FieldType) (n : Int) : Prop := t.least ≤ n ∧ n ≤ t.greatest

instance (t : FieldType) (n : Int) : Decidable (t.Spans n) :=
  inferInstanceAs (Decidable (_ ∧ _))

/-- A number, stopped at the ends of the range of a type. -/
def clamp (t : FieldType) (n : Int) : Int := max t.least (min n t.greatest)

variable {t : FieldType} {m n : Int}

theorem least_le_greatest (t : FieldType) : t.least ≤ t.greatest := by
  cases t <;> decide

theorem spans_clamp (t : FieldType) (n : Int) : t.Spans (t.clamp n) := by
  have := t.least_le_greatest
  simp only [Spans, clamp]
  omega

theorem Spans.clamp_eq (h : t.Spans n) : t.clamp n = n := by
  simp only [Spans, clamp] at *
  omega

theorem clamp_mono (h : m ≤ n) : t.clamp m ≤ t.clamp n := by
  simp only [clamp]
  omega

end FieldType

namespace Sign

def signed : Sign → Int → Int
  | .plus, n => n
  | .minus, n => -n

/-- The range of 32 bits is that of the integers, the range of 64 bits that of the other types. -/
theorem saturate_eq_clamp (sign : Sign) (n d : Int) :
    sign.saturate 32 n d = FieldType.int.clamp (n + sign.signed d) ∧
      sign.saturate 64 n d = FieldType.long.clamp (n + sign.signed d) := by
  cases sign <;> exact ⟨rfl, rfl⟩

theorem toInt_saturate (sign : Sign) (n d : Int) :
    (Int32.ofInt (sign.saturate 32 n d)).toInt = FieldType.int.clamp (n + sign.signed d) ∧
      (Int64.ofInt (sign.saturate 64 n d)).toInt = FieldType.long.clamp (n + sign.signed d) := by
  rw [(sign.saturate_eq_clamp n d).1, (sign.saturate_eq_clamp n d).2]
  obtain ⟨hlow, hhigh⟩ := FieldType.int.spans_clamp (n + sign.signed d)
  obtain ⟨hlow', hhigh'⟩ := FieldType.long.spans_clamp (n + sign.signed d)
  exact ⟨Int32.toInt_ofInt_of_le hlow (Int.lt_of_le_sub_one hhigh),
    Int64.toInt_ofInt_of_le hlow' (Int.lt_of_le_sub_one hhigh')⟩

end Sign

structure Accumulation where
  sign : Sign
  amount : Value
  deriving DecidableEq, Repr

namespace Accumulation

def change (c : Accumulation) : Int := c.sign.signed c.amount.number

def total : List Accumulation → Int
  | [] => 0
  | c :: rest => c.change + total rest

/-- A number after accumulations, each of which stops at the ends of a range. -/
def clampAll (t : FieldType) (n : Int) (changes : List Accumulation) : Int :=
  changes.foldl (fun n c => t.clamp (n + c.change)) n

/-- No number on the way through some accumulations leaves the range of a type. -/
def Stays (t : FieldType) (n : Int) (changes : List Accumulation) : Prop :=
  ∀ done, done <+: changes → t.Spans (n + total done)

instance (t : FieldType) (n : Int) (changes : List Accumulation) : Decidable (Stays t n changes) :=
  decidable_of_iff (∀ done ∈ changes.inits, t.Spans (n + total done))
    (forall_congr' fun _ => imp_congr_left (List.mem_inits _ _))

variable {t : FieldType} {m n : Int} {c : Accumulation} {changes : List Accumulation}

theorem total_perm {others : List Accumulation} (h : others.Perm changes) :
    total others = total changes := by
  induction h with
  | nil => rfl
  | cons c _ ih => rw [total, total, ih]
  | swap c d rest => simp only [total, Int.add_left_comm]
  | trans _ _ ih₁ ih₂ => exact ih₁.trans ih₂

theorem Stays.cons (h : Stays t n (c :: changes)) :
    t.Spans (n + c.change) ∧ Stays t (n + c.change) changes := by
  refine ⟨?_, fun done hdone => ?_⟩
  · simpa [total] using h [c] (List.cons_prefix_cons.2 ⟨rfl, List.nil_prefix⟩)
  · simpa [total, Int.add_assoc] using h (c :: done) (List.cons_prefix_cons.2 ⟨rfl, hdone⟩)

theorem clampAll_eq (h : Stays t n changes) : clampAll t n changes = n + total changes := by
  induction changes generalizing n with
  | nil => simp [clampAll, total]
  | cons c changes ih =>
    obtain ⟨hspans, hstays⟩ := h.cons
    have := ih hstays
    rw [clampAll] at this ⊢
    rw [List.foldl_cons, hspans.clamp_eq, this, total, Int.add_assoc]

end Accumulation

namespace Value

variable {v w : Value} {t : FieldType}

theorem spans_number (hv : v.type = t) (ht : t.isIntegral = true) : t.Spans v.number := by
  subst hv
  cases v with
  | int v => exact ⟨v.le_toInt, Int.le_sub_one_of_lt v.toInt_lt⟩
  | long v | date v => exact ⟨v.le_toInt, Int.le_sub_one_of_lt v.toInt_lt⟩
  | double _ | str _ | bool _ => cases ht
  | unset t => cases t <;> decide

theorem number_of_isUnset (h : v.isUnset = true) : v.number = 0 := by
  cases v <;> first | rfl | cases h

/-- Values of an integral type are told apart by their numbers, and the sentinel from all others. -/
theorem eq_of_number (ht : v.type.isIntegral = true) (htype : v.type = w.type)
    (hunset : v.isUnset = w.isUnset) (hnumber : v.number = w.number) : v = w := by
  have hwording {v : Value} (ht : v.type.isIntegral = true) : v.wording = "" := by
    cases v <;> first | rfl | cases ht
  have hlevel : v.compare w = .eq := compare_eq_eq_iff.2
    ⟨htype, hunset, hnumber, (hwording ht).trans (hwording (htype ▸ ht)).symm⟩
  cases compare_eq_iff_alike.1 hlevel with
  | refl => rfl
  | zeros | nans => cases ht

end Value

namespace Accumulation

variable {t : FieldType} {v : Value} {c : Accumulation} {changes : List Accumulation}

def applyTo (c : Accumulation) (v : Value) : Value := c.sign.accumulate v c.amount

theorem applyTo_of_isUnset (htype : v.type = c.amount.type) (hunset : c.amount.isUnset = true) :
    c.applyTo v = v := by
  obtain ⟨sign, amount⟩ := c
  cases amount with
  | unset t =>
    cases v with
    | unset s =>
      obtain rfl : s = t := htype
      cases sign <;> rfl
    | _ => rfl
  | _ => cases hunset

/-- A set amount leaves a set value with the exact number, stopped at the ends of the range. -/
theorem applyTo_of_isSet (ht : t.isIntegral = true) (hv : v.type = t) (hc : c.amount.type = t)
    (hset : c.amount.isUnset = false) : (c.applyTo v).type = t ∧ (c.applyTo v).isUnset = false ∧
      (c.applyTo v).number = t.clamp (v.number + c.change) := by
  obtain ⟨sign, amount⟩ := c
  have hspans : t.Spans amount.number := Value.spans_number hc ht
  have hstart : amount.number = t.clamp (0 + amount.number) := by rw [Int.zero_add, hspans.clamp_eq]
  cases amount with
  | int d =>
    obtain rfl : FieldType.int = t := hc
    cases v with
    | int n => exact ⟨rfl, rfl, (sign.toInt_saturate n.toInt d.toInt).1⟩
    | unset =>
      cases sign with
      | plus => exact ⟨rfl, rfl, hstart⟩
      | minus => exact ⟨rfl, rfl, (Sign.minus.toInt_saturate 0 d.toInt).1⟩
    | _ => cases hv
  | long d =>
    obtain rfl : FieldType.long = t := hc
    cases v with
    | long n => exact ⟨rfl, rfl, (sign.toInt_saturate n.toInt d.toInt).2⟩
    | unset =>
      cases sign with
      | plus => exact ⟨rfl, rfl, hstart⟩
      | minus => exact ⟨rfl, rfl, (Sign.minus.toInt_saturate 0 d.toInt).2⟩
    | _ => cases hv
  | date d =>
    obtain rfl : FieldType.date = t := hc
    cases v with
    | date n => exact ⟨rfl, rfl, (sign.toInt_saturate n.toInt d.toInt).2⟩
    | unset =>
      cases sign with
      | plus => exact ⟨rfl, rfl, hstart⟩
      | minus => exact ⟨rfl, rfl, (Sign.minus.toInt_saturate 0 d.toInt).2⟩
    | _ => cases hv
  | unset => cases hset
  | _ => cases hc ▸ ht

theorem applyTo_spec (ht : t.isIntegral = true) (hv : v.type = t) (hc : c.amount.type = t) :
    (c.applyTo v).type = t ∧ (c.applyTo v).isUnset = (v.isUnset && c.amount.isUnset) ∧
      (c.applyTo v).number = t.clamp (v.number + c.change) := by
  cases hset : c.amount.isUnset with
  | true =>
    have hchange : c.change = 0 := by
      rw [change, Value.number_of_isUnset hset]
      cases c.sign <;> rfl
    rw [applyTo_of_isUnset (hv.trans hc.symm) hset, hchange, Int.add_zero,
      (Value.spans_number hv ht).clamp_eq, Bool.and_true]
    exact ⟨hv, rfl, rfl⟩
  | false =>
    rw [Bool.and_false]
    exact applyTo_of_isSet ht hv hc hset

def applyAllTo (changes : List Accumulation) (v : Value) : Value := changes.foldl (flip applyTo) v

theorem applyAllTo_spec (ht : t.isIntegral = true) (hv : v.type = t)
    (hchanges : ∀ c ∈ changes, c.amount.type = t) :
    (applyAllTo changes v).type = t ∧
      (applyAllTo changes v).isUnset = (v.isUnset && changes.all fun c => c.amount.isUnset) ∧
      (applyAllTo changes v).number = clampAll t v.number changes := by
  induction changes generalizing v with
  | nil => exact ⟨hv, (Bool.and_true _).symm, rfl⟩
  | cons c changes ih =>
    obtain ⟨hc, hchanges⟩ := List.forall_mem_cons.1 hchanges
    obtain ⟨htype, hunset, hnumber⟩ := applyTo_spec (c := c) ht hv hc
    obtain ⟨ihtype, ihunset, ihnumber⟩ := ih htype hchanges
    refine ⟨ihtype, ihunset.trans ?_, ihnumber.trans ?_⟩
    · rw [hunset, Bool.and_assoc, List.all_cons]
    · rw [hnumber]
      rfl

end Accumulation

namespace Entry

variable {e f : Entry} {shape : Shape} {t : FieldType} {p q : Nat} {v w : Value}

/-- Accumulations at a position, one after another. -/
def accumulateAll (e : Entry) (position : Nat) (changes : List Accumulation) : Checked Entry :=
  changes.foldlM (fun e c => e.accumulate c.sign position c.amount) e

theorem accumulate_eq (he : e.Conforms shape) (hp : shape.field? p = some t)
    (ht : t.isIntegral = true) {c : Accumulation} (hc : c.amount.type = t) :
    e.accumulate c.sign p c.amount = .ok (e.withValue (p - 1) (c.applyTo (e.field p))) := by
  have hfit : e.shape.field? p = some c.amount.type := by rw [he.shape_eq, hc, hp]
  have hnumeric : c.amount.type.isNumeric = true := by
    rw [hc]
    cases t <;> first | rfl | cases ht
  rcases he.typed.accumulate_cases c.sign p c.amount with ⟨-, heq⟩ | ⟨hmisfit, -⟩
  · exact heq
  · exact absurd ⟨hfit, hnumeric⟩ hmisfit

theorem accumulateAll_eq (he : e.Conforms shape) (hp : shape.field? p = some t)
    (ht : t.isIntegral = true) {changes : List Accumulation}
    (hchanges : ∀ c ∈ changes, c.amount.type = t) : e.accumulateAll p changes =
      .ok (e.withValue (p - 1) (Accumulation.applyAllTo changes (e.field p))) := by
  induction changes generalizing e with
  | nil =>
    rw [Accumulation.applyAllTo, List.foldl_nil, withValue_field he hp]
    rfl
  | cons c changes ih =>
    obtain ⟨hc, hchanges⟩ := List.forall_mem_cons.1 hchanges
    have hstep := (Accumulation.applyTo_spec (c := c) ht (type_field he hp) hc).1
    have := ih (conforms_withValue he hp hstep) hchanges
    rw [accumulateAll] at this ⊢
    rw [List.foldlM_cons, accumulate_eq he hp ht hc]
    refine this.trans ?_
    rw [withValue_withValue, field_withValue he hp]
    rfl

/-- What an accumulation at a position makes of an entry. -/
structure Accumulated (t : FieldType) (p : Nat) (c : Accumulation) (e f : Entry) : Prop where
  idle : c.amount.isUnset = true → f = e
  set : c.amount.isUnset = false → (f.field p).isUnset = false
  number : (f.field p).number = t.clamp ((e.field p).number + c.change)
  spans : t.Spans (f.field p).number
  beside : ∀ q, 0 < q → q ≠ p → f.field q = e.field q

theorem exists_accumulated (he : e.Conforms shape) (hp : shape.field? p = some t)
    (ht : t.isIntegral = true) {c : Accumulation} (hc : c.amount.type = t) :
    ∃ f, e.accumulate c.sign p c.amount = .ok f ∧ f.Conforms shape ∧ Accumulated t p c e f := by
  have htype := type_field he hp
  obtain ⟨hnext, hunset, hnumber⟩ := Accumulation.applyTo_spec (c := c) ht htype hc
  refine ⟨_, accumulate_eq he hp ht hc, conforms_withValue he hp hnext, fun hidle => ?_,
    fun hset => ?_, ?_, ?_, fun q hq => field_withValue_of_ne (lt_of_field? hp).1 hq⟩
  · rw [Accumulation.applyTo_of_isUnset (htype.trans hc.symm) hidle, withValue_field he hp]
  · rw [field_withValue he hp, hunset, hset, Bool.and_false]
  · rw [field_withValue he hp, hnumber]
  · rw [field_withValue he hp, hnumber]
    exact t.spans_clamp _

/-- Accumulation at an integral position is exact up to the ends of the range of its type, and
accumulations that stay inside the range may come in any order. The position stays unset only if it
was and all amounts are. -/
theorem accumulations_exact (hp : shape.field? p = some t) (ht : t.isIntegral = true) :
    (∀ c : Accumulation, c.amount.type = t → ∀ e : Entry, e.Conforms shape →
      ∃ f, e.accumulate c.sign p c.amount = .ok f ∧ f.Conforms shape ∧ Accumulated t p c e f ∧
        ∀ e' f' : Entry, e'.Conforms shape → e'.accumulate c.sign p c.amount = .ok f' →
          (e.field p).number ≤ (e'.field p).number → (f.field p).number ≤ (f'.field p).number) ∧
    ∀ changes : List Accumulation, (∀ c ∈ changes, c.amount.type = t) →
      ∀ e : Entry, e.Conforms shape → ∃ f, e.accumulateAll p changes = .ok f ∧ f.Conforms shape ∧
        t.Spans (f.field p).number ∧
        (f.field p).isUnset = ((e.field p).isUnset && changes.all fun c => c.amount.isUnset) ∧
        (f.field p).number = Accumulation.clampAll t (e.field p).number changes ∧
        (∀ q, 0 < q → q ≠ p → f.field q = e.field q) ∧
        (Accumulation.Stays t (e.field p).number changes →
          (f.field p).number = (e.field p).number + Accumulation.total changes ∧
          ∀ others, others.Perm changes → Accumulation.Stays t (e.field p).number others →
            e.accumulateAll p others = .ok f) := by
  refine ⟨fun c hc e he => ?_, fun changes hchanges e he => ?_⟩
  · obtain ⟨f, hf, hconforms, hacc⟩ := exists_accumulated he hp ht hc
    refine ⟨f, hf, hconforms, hacc, fun e' f' he' hf' hle => ?_⟩
    obtain ⟨g, hg, -, hacc'⟩ := exists_accumulated he' hp ht hc
    obtain rfl := Except.ok.inj (hf'.symm.trans hg)
    rw [hacc.number, hacc'.number]
    exact FieldType.clamp_mono (by omega)
  · have htype := type_field he hp
    obtain ⟨hnext, hunset, hnumber⟩ := Accumulation.applyAllTo_spec ht htype hchanges
    refine ⟨_, accumulateAll_eq he hp ht hchanges, conforms_withValue he hp hnext, ?_, ?_, ?_,
      fun q hq => field_withValue_of_ne (lt_of_field? hp).1 hq, fun hstays => ⟨?_, ?_⟩⟩
    · rw [field_withValue he hp]
      exact Value.spans_number hnext ht
    · rw [field_withValue he hp, hunset]
    · rw [field_withValue he hp, hnumber]
    · rw [field_withValue he hp, hnumber, Accumulation.clampAll_eq hstays]
    · intro others hperm hothers
      have hchanges' : ∀ c ∈ others, c.amount.type = t :=
        fun c hc => hchanges c (hperm.mem_iff.1 hc)
      obtain ⟨hnext', hunset', hnumber'⟩ := Accumulation.applyAllTo_spec ht htype hchanges'
      -- the two runs leave one value, since they leave one number
      have hsame : Accumulation.applyAllTo others (e.field p) =
          Accumulation.applyAllTo changes (e.field p) := by
        refine Value.eq_of_number (hnext'.symm ▸ ht) (hnext'.trans hnext.symm) ?_ ?_
        · rw [hunset, hunset', hperm.all_eq]
        · rw [hnumber, hnumber', Accumulation.clampAll_eq hstays, Accumulation.clampAll_eq hothers,
            Accumulation.total_perm hperm]
      rw [accumulateAll_eq he hp ht hchanges', hsame]

/-- A gain and a loss on a number that is unset yet, one amount of each not known. -/
def sampleChanges : List Accumulation :=
  [⟨.plus, .int 5⟩, ⟨.minus, .int 12⟩, ⟨.minus, .unset .int⟩]

theorem accumulations_exact_of_sample :
    Shape.field? ⟨[.str, .int]⟩ 2 = some .int ∧ FieldType.int.isIntegral = true ∧
    (∀ c ∈ sampleChanges, c.amount.type = .int) ∧ (blank ⟨[.str, .int]⟩).Conforms ⟨[.str, .int]⟩ ∧
    Accumulation.Stays .int 0 sampleChanges ∧ Accumulation.Stays .int 0 sampleChanges.reverse ∧
    ∃ f, (blank ⟨[.str, .int]⟩).accumulateAll 2 sampleChanges = .ok f ∧
      (blank ⟨[.str, .int]⟩).accumulateAll 2 sampleChanges.reverse = .ok f ∧
      (f.field 2).number = -7 ∧ (f.field 2).isUnset = false := by
  have hstays : Accumulation.Stays .int 0 sampleChanges := by decide
  have hback : Accumulation.Stays .int 0 sampleChanges.reverse := by decide
  have htypes : ∀ c ∈ sampleChanges, c.amount.type = .int := by decide
  have hblank := conforms_blank ⟨[.str, .int]⟩
  have hfield : Shape.field? ⟨[.str, .int]⟩ 2 = some .int := rfl
  obtain ⟨f, hf, -, -, hunset, -, -, hexact⟩ := (accumulations_exact hfield rfl).2 _ htypes _ hblank
  obtain ⟨hnumber, horder⟩ := hexact hstays
  exact ⟨hfield, rfl, htypes, hblank, hstays, hback, f, hf,
    horder _ (List.reverse_perm _) hback, hnumber, hunset⟩

end Entry
end IndexedStore
