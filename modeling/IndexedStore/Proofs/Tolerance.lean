import Mathlib
import IndexedStore.Entry
import IndexedStore.Proofs.Keys

/-!
# Closeness of values

Doubles are close if their difference rounds to less than the tolerance. An infinity and a NaN have
no such difference from anything, themselves included; any other double is close to all doubles
level with it. Closeness of values and of entries does not depend on which of the two comes first.
-/
namespace IndexedStore

namespace Double

open Float.Model Float.Model.UnpackedFloat

/-- The number that the bits of a double stand for: sign, mantissa and exponent. -/
def parts (d : Double) : UnpackedFloat := d.toFloat.toModel.unpack

def isFinite (d : Double) : Bool := d.magnitude < infinity

/-! ## The fields of the bits -/

theorem toNat_exponent (bits : UInt64) :
    (@unpackExponent .binary64 bits.toBitVec).toNat =
      bits.toNat / 0x10000000000000 % 0x800 := by
  simp [unpackExponent, Nat.shiftRight_eq_div_pow]

theorem toNat_mantissa (bits : UInt64) :
    (@unpackMantissa .binary64 bits.toBitVec).toNat = bits.toNat % 0x10000000000000 := by
  simp [unpackMantissa]

theorem exponent_eq_last_iff (d : Double) :
    @unpackExponent .binary64 d.bits.toBitVec = -1#_ ↔ d.isFinite = false := by
  rw [← BitVec.toNat_inj, toNat_exponent, isFinite, decide_eq_false_iff_not, magnitude, infinity]
  change d.bits.toNat / 0x10000000000000 % 0x800 = 2047 ↔ _
  omega

theorem exponent_eq_zero_iff (d : Double) :
    @unpackExponent .binary64 d.bits.toBitVec = 0#_ ↔ d.magnitude < 0x10000000000000 := by
  rw [← BitVec.toNat_inj, toNat_exponent, magnitude]
  change d.bits.toNat / 0x10000000000000 % 0x800 = 0 ↔ _
  omega

theorem mantissa_eq_zero_iff (d : Double) :
    @unpackMantissa .binary64 d.bits.toBitVec = 0#_ ↔ d.magnitude % 0x10000000000000 = 0 := by
  rw [← BitVec.toNat_inj, toNat_mantissa, magnitude]
  change d.bits.toNat % 0x10000000000000 = 0 ↔ _
  omega

/-! ## Packing and unpacking -/

section Packing

variable {s : UnpackedFloat.Sign} {u v : UnpackedFloat}

theorem unpack_pack_eq (u : UnpackedFloat) : (Float.Model.pack u).unpack =
    UnpackedFloat.unpack .binary64 (UnpackedFloat.pack .binary64 u) := rfl

theorem unpack_pack_zero : (Float.Model.pack (.zero s)).unpack = .zero s := by cases s <;> rfl

theorem unpack_pack_infinity : (Float.Model.pack (.infinity s)).unpack = .infinity s := by
  cases s <;> rfl

theorem abs_unpack_packComponents (s t : UnpackedFloat.Sign) (e : BitVec 11) (m : BitVec 52) :
    (UnpackedFloat.unpack .binary64 (packComponents .binary64 s e m)).abs =
      (UnpackedFloat.unpack .binary64 (packComponents .binary64 t e m)).abs := by
  simp only [UnpackedFloat.unpack, unpackExponent_packComponents, unpackMantissa_packComponents]
  split
  · split <;> simp only [UnpackedFloat.abs]
  · split
    · split <;> simp only [UnpackedFloat.abs]
    · simp only [UnpackedFloat.abs]

theorem abs_unpack_pack_abs (u : UnpackedFloat) :
    (Float.Model.pack u.abs).unpack.abs = (Float.Model.pack u).unpack.abs := by
  cases u with
  | notANumber => rfl
  | infinity s =>
    rw [UnpackedFloat.abs, unpack_pack_infinity, unpack_pack_infinity]
    rfl
  | zero s =>
    rw [UnpackedFloat.abs, unpack_pack_zero, unpack_pack_zero]
    rfl
  | finite s m e hm =>
    rw [UnpackedFloat.abs, unpack_pack_eq, unpack_pack_eq, UnpackedFloat.pack, UnpackedFloat.pack]
    dsimp only
    split
    · exact abs_unpack_packComponents _ _ _ _
    · split <;> exact abs_unpack_packComponents _ _ _ _

end Packing

/-! ## Differences -/

section Differences

variable {u v : UnpackedFloat}

/-- Whether a difference is below the tolerance, whatever its sign. -/
def isSmall (difference : UnpackedFloat) : Bool :=
  (Float.ofModel (.pack (Float.Model.pack difference).unpack.abs)) < 0.01

theorem isClose_eq (a b : Double) :
    a.isClose b = isSmall (.sub .binary64 a.parts b.parts) := rfl

theorem isSmall_congr (h : u.abs = v.abs) : isSmall u = isSmall v := by
  rw [isSmall, isSmall, ← abs_unpack_pack_abs u, h, abs_unpack_pack_abs]

theorem isSmall_zero (s : UnpackedFloat.Sign) : isSmall (.zero s) = true := by
  cases s <;> decide

theorem isSmall_infinity (s : UnpackedFloat.Sign) : isSmall (.infinity s) = false := by
  cases s <;> decide

theorem isSmall_notANumber : isSmall .notANumber = false := by decide

theorem abs_round (s t : UnpackedFloat.Sign) (m : Nat) (e : Int) :
    (UnpackedFloat.round .binary64 s m e).abs = (UnpackedFloat.round .binary64 t m e).abs := by
  simp only [UnpackedFloat.round, roundWithAccuracy]
  split <;> rfl

theorem abs_normalize_neg (m e : Int) (s : UnpackedFloat.Sign) :
    (UnpackedFloat.normalize .binary64 (-m) e s).abs =
      (UnpackedFloat.normalize .binary64 m e s).abs := by
  rw [UnpackedFloat.normalize, UnpackedFloat.normalize]
  rcases Int.lt_trichotomy m 0 with h | rfl | h
  · rw [Int.compare_eq_gt.2 (show -m > 0 by omega), Int.compare_eq_lt.2 h]
    exact abs_round _ _ _ _
  · rfl
  · rw [Int.compare_eq_lt.2 (show -m < 0 by omega), Int.compare_eq_gt.2 h]
    dsimp only
    rw [Int.neg_neg]
    exact abs_round _ _ _ _

theorem abs_sub_comm (u v : UnpackedFloat) :
    (UnpackedFloat.sub .binary64 u v).abs = (UnpackedFloat.sub .binary64 v u).abs := by
  cases u with
  | notANumber => cases v <;> rfl
  | infinity s =>
    cases v with
    | infinity t => cases s <;> cases t <;> rfl
    | notANumber | zero | finite => rfl
  | zero s =>
    cases v with
    | zero t => cases s <;> cases t <;> rfl
    | notANumber | infinity | finite => rfl
  | finite s m e hm =>
    cases v with
    | finite t m' e' hm' =>
      simp only [UnpackedFloat.sub, Int.min_comm e' e]
      rw [← abs_normalize_neg, Int.neg_sub]
    | notANumber | infinity | zero => rfl

theorem isClose_comm (a b : Double) : a.isClose b = b.isClose a := by
  rw [isClose_eq, isClose_eq, isSmall_congr (abs_sub_comm _ _)]

theorem exists_sub_self (h : u.isFinite = true) :
    ∃ s, UnpackedFloat.sub .binary64 u u = .zero s := by
  cases u with
  | notANumber | infinity => cases h
  | zero s => cases s <;> exact ⟨_, rfl⟩
  | finite s m e hm =>
    refine ⟨.positive, ?_⟩
    simp only [UnpackedFloat.sub, Int.sub_self]
    rfl

theorem isSmall_sub_of_notANumber (v : UnpackedFloat) :
    isSmall (.sub .binary64 .notANumber v) = false := isSmall_notANumber

theorem isSmall_sub_of_infinity (s : UnpackedFloat.Sign) (v : UnpackedFloat) :
    isSmall (.sub .binary64 (.infinity s) v) = false := by
  cases v with
  | notANumber => exact isSmall_notANumber
  | infinity t =>
    rw [UnpackedFloat.sub]
    split
    · exact isSmall_infinity s
    · exact isSmall_notANumber
  | zero t => exact isSmall_infinity s
  | finite t m e hm => exact isSmall_infinity s

end Differences

/-! ## Closeness of doubles -/

/-- Reading bits as a float and taking it apart is taking the bits apart: a NaN keeps no payload. -/
theorem parts_eq (d : Double) : d.parts = UnpackedFloat.unpack .binary64 d.bits.toBitVec := by
  change UnpackedFloat.unpack .binary64
    (UnpackedFloat.pack .binary64 (UnpackedFloat.unpack .binary64 d.bits.toBitVec)) = _
  rw [pack_unpack]
  split
  next hnan =>
    rw [isNaNBits, decide_eq_true_eq] at hnan
    rw [unpack_packedNaN, UnpackedFloat.unpack]
    dsimp only
    rw [if_pos hnan.1, if_neg hnan.2]
  next => rfl

theorem parts_of_zero {d : Double} (h : d.magnitude = 0) : ∃ s, d.parts = .zero s := by
  have hlast := mt (exponent_eq_last_iff d).1 (by simp [isFinite, h, infinity])
  have hzero := (exponent_eq_zero_iff d).2 (by omega)
  have hmantissa := (mantissa_eq_zero_iff d).2 (by omega)
  rw [parts_eq, UnpackedFloat.unpack]
  dsimp only
  rw [if_neg hlast, if_pos hzero, dif_pos hmantissa]
  exact ⟨_, rfl⟩

theorem isFinite_parts {d : Double} (h : d.isFinite = true) : d.parts.isFinite = true := by
  have hlast := mt (exponent_eq_last_iff d).1 (by simp [h])
  rw [parts_eq, UnpackedFloat.unpack]
  dsimp only
  rw [if_neg hlast]
  split
  · split <;> rfl
  · rfl

theorem parts_of_not_finite {d : Double} (h : d.isFinite = false) :
    d.parts = .notANumber ∨ ∃ s, d.parts = .infinity s := by
  rw [parts_eq, UnpackedFloat.unpack]
  dsimp only
  rw [if_pos ((exponent_eq_last_iff d).2 h)]
  split
  · exact .inr ⟨_, rfl⟩
  · exact .inl rfl

theorem isNaN_of_rank {a b : Double} (h : a.rank = b.rank) (ha : a.isNaN = false) :
    b.isNaN = false := by
  by_contra hb
  rw [Bool.not_eq_false] at hb
  have := rank_lt a ha
  rw [h, rank, if_pos hb] at this
  omega

theorem isNaN_of_isFinite {d : Double} (h : d.isFinite = true) : d.isNaN = false := by
  rw [isFinite, decide_eq_true_eq] at h
  rw [isNaN, decide_eq_false_iff_not]
  omega

theorem isClose_of_rank {a b : Double} (h : a.rank = b.rank) (ha : a.isFinite = true) :
    a.isClose b = true := by
  rw [isClose_eq]
  have hnumber := isNaN_of_isFinite ha
  rcases eq_or_zero_of_rank h hnumber (isNaN_of_rank h hnumber) with rfl | ⟨hza, hzb⟩
  · obtain ⟨s, hs⟩ := exists_sub_self (isFinite_parts ha)
    rw [hs, isSmall_zero]
  · obtain ⟨s, hs⟩ := parts_of_zero hza
    obtain ⟨t, ht⟩ := parts_of_zero hzb
    rw [hs, ht, UnpackedFloat.sub]
    split <;> exact isSmall_zero _

theorem isClose_of_not_finite {a : Double} (h : a.isFinite = false) (b : Double) :
    a.isClose b = false := by
  rw [isClose_eq]
  rcases parts_of_not_finite h with ha | ⟨s, ha⟩
  · rw [ha, isSmall_sub_of_notANumber]
  · rw [ha, isSmall_sub_of_infinity]

end Double

/-! ## Closeness of values -/

namespace Value

variable {a b : Value}

def isDouble : Value → Bool
  | .double _ => true
  | _ => false

/-- Whether a value is anything but an infinity or a NaN. -/
def isFinite : Value → Bool
  | .double d => d.isFinite
  | _ => true

theorem isClose_comm (a b : Value) : a.isClose b = b.isClose a := by
  cases a <;> cases b <;> first | exact Double.isClose_comm _ _ | exact same_comm _ _

theorem isClose_eq_same (ha : a.isDouble = false) : a.isClose b = a.same b := by
  cases a with
  | double d => cases ha
  | int | long | str | date | bool | unset => rfl

theorem exists_double_of_same {d : Double} (h : (double d).same b = true) :
    ∃ d', b = double d' ∧ d.rank = d'.rank := by
  obtain ⟨htype, hunset, hrank, -⟩ := (same_iff _ _).1 h
  cases b with
  | double d' => exact ⟨d', rfl, hrank⟩
  | unset t => cases hunset
  | int | long | str | date | bool => cases htype

/-- A value is close to those it is the same as, unless it is an infinity or a NaN. -/
theorem isClose_eq_isFinite (h : a.same b = true) : a.isClose b = a.isFinite := by
  cases a with
  | double d =>
    obtain ⟨d', rfl, hrank⟩ := exists_double_of_same h
    cases hd : d.isFinite with
    | true => exact (Double.isClose_of_rank hrank hd).trans hd.symm
    | false => exact (Double.isClose_of_not_finite hd d').trans hd.symm
  | int | long | str | date | bool | unset => exact (isClose_eq_same rfl).trans h

theorem isFinite_of_isClose (h : a.isClose b = true) : a.isFinite = true := by
  cases a with
  | double d =>
    by_contra hd
    have hd : d.isFinite = false := Bool.eq_false_iff.2 hd
    cases b with
    | double d' => exact absurd ((Double.isClose_of_not_finite hd d').symm.trans h) (by decide)
    | unset t => cases t <;> cases h
    | int | long | str | date | bool => cases h
  | int | long | str | date | bool | unset => rfl

theorem eq_of_same (ha : a.isDouble = false) (h : a.same b = true) : a = b := by
  obtain ⟨htype, hunset, hnumber, hwording⟩ := (same_iff a b).1 h
  cases a <;> cases b
  case bool.bool a b => cases a <;> cases b <;> first | rfl | cases hnumber
  all_goals simp_all [type, isUnset, number, wording, isDouble, Int32.toInt_inj, Int64.toInt_inj]

theorem isClose_iff_eq (ha : a.isDouble = false) : a.isClose b = true ↔ a = b := by
  rw [isClose_eq_same ha]
  refine ⟨eq_of_same ha, ?_⟩
  rintro rfl
  exact same_eq_true_iff.2 Std.ReflCmp.compare_self

end Value

/-! ## Closeness of entries -/

namespace Entry

variable {a b : Entry} {shape : Shape}

def hasDouble (e : Entry) : Bool := e.values.any Value.isDouble

def isFinite (e : Entry) : Bool := e.values.all Value.isFinite

theorem same_iff : a.same b = true ↔
    a.shape = b.shape ∧ List.Forall₂ (fun x y => x.same y = true) a.values b.values := by
  rw [same, decide_eq_true_eq, List.all_eq_true, List.forall₂_iff_zip]
  simp only [Prod.forall]
  rfl

theorem isClose_iff (hlength : a.values.length = b.values.length) : a.isClose b = true ↔
    a.shape = b.shape ∧ List.Forall₂ (fun x y => x.isClose y = true) a.values b.values := by
  rw [isClose, decide_eq_true_eq, List.all_eq_true, List.forall₂_iff_zip, Prod.forall]
  simp only [hlength, true_and]

theorem isClose_comm (a b : Entry) : a.isClose b = b.isClose a := by
  have hvalues : (a.values.zip b.values).all (fun pair => pair.1.isClose pair.2) =
      (b.values.zip a.values).all fun pair => pair.1.isClose pair.2 := by
    rw [← List.zip_swap a.values b.values, List.all_map]
    exact congrArg _ (funext fun _ => Value.isClose_comm _ _)
  exact decide_eq_decide.2 (and_congr eq_comm (Bool.eq_iff_iff.1 hvalues))

/-- An entry is close to those it is the same as, unless it has an infinity or a NaN. -/
theorem isClose_eq_isFinite (h : a.same b = true) : a.isClose b = a.isFinite := by
  obtain ⟨hshape, hsame⟩ := same_iff.1 h
  have hvalues {xs ys : List Value} (hsame : List.Forall₂ (fun x y => x.same y = true) xs ys) :
      List.Forall₂ (fun x y => x.isClose y = true) xs ys ↔ xs.all Value.isFinite = true := by
    induction hsame with
    | nil => simp
    | cons hxy _ ih => simp [Value.isClose_eq_isFinite hxy, ih]
  rw [Bool.eq_iff_iff, isClose_iff hsame.length_eq, hvalues hsame, isFinite]
  exact and_iff_right hshape

theorem isClose_self (e : Entry) : e.isClose e = e.isFinite := by
  refine isClose_eq_isFinite (same_iff.2 ⟨rfl, List.forall₂_same.2 fun v _ => ?_⟩)
  exact Value.same_eq_true_iff.2 Std.ReflCmp.compare_self

theorem isFinite_of_isClose (ha : a.Conforms shape) (hb : b.Conforms shape)
    (h : a.isClose b = true) : a.isFinite = true := by
  have hvalues := ((isClose_iff (ha.length.trans hb.length.symm)).1 h).2
  rw [isFinite]
  generalize a.values = xs at hvalues ⊢
  generalize b.values = ys at hvalues
  induction hvalues with
  | nil => rfl
  | cons hxy _ ih => rw [List.all_cons, Value.isFinite_of_isClose hxy, ih, Bool.true_and]

theorem isClose_iff_eq (ha : a.Conforms shape) (hb : b.Conforms shape) (hd : a.hasDouble = false) :
    a.isClose b = true ↔ a = b := by
  have hvalues {xs ys : List Value} (hd : xs.any Value.isDouble = false) :
      List.Forall₂ (fun x y => x.isClose y = true) xs ys ↔ xs = ys := by
    induction xs generalizing ys with
    | nil => cases ys <;> simp
    | cons x xs ih =>
      rw [List.any_cons, Bool.or_eq_false_iff] at hd
      cases ys with
      | nil => simp
      | cons y ys => rw [List.forall₂_cons, Value.isClose_iff_eq hd.1, ih hd.2, List.cons.injEq]
  rw [isClose_iff (ha.length.trans hb.length.symm), hvalues hd]
  cases a
  cases b
  rw [Entry.mk.injEq]

theorem isClose_valueAt (ha : a.Conforms shape) (hb : b.Conforms shape) (h : a.isClose b = true)
    (o : Nat) : (a.valueAt o).isClose (b.valueAt o) = true := by
  have hlength := ha.length.trans hb.length.symm
  have hvalues := ((isClose_iff hlength).1 h).2
  rw [valueAt, valueAt, List.getD_eq_getElem?_getD, List.getD_eq_getElem?_getD]
  by_cases ho : o < a.values.length
  · rw [List.getElem?_eq_getElem ho, List.getElem?_eq_getElem (hlength ▸ ho)]
    exact List.Forall₂.get hvalues ho (hlength ▸ ho)
  · rw [List.getElem?_eq_none (by omega), List.getElem?_eq_none (by omega)]
    rfl

end Entry
end IndexedStore
