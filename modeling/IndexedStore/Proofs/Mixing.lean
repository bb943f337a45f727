import Mathlib.Algebra.Group.Nat.Defs
import Mathlib.Data.List.Basic
import IndexedStore.Mixing

/-!
# What the mixing hash tells apart

Every stage of the hash can be undone: a product with an odd factor by the inverse of the factor, a
rotation by moving the bits back, the sum of a word and its shift because only zero is its own
shift. So a digest tells two sequences of blocks apart that differ in one place, however many blocks
follow, and the hash of a byte string tells two strings apart that differ within one word.
-/
namespace IndexedStore.Mixing

/-! ## Words -/

section Words

variable {word amount factor : UInt32}

theorem mul_injective (inverse : UInt32) (h : factor * inverse = 1) :
    Function.Injective (· * factor) := by
  intro a b hab
  have hprod : a * factor * inverse = b * factor * inverse := congrArg (· * inverse) hab
  rwa [UInt32.mul_assoc, UInt32.mul_assoc, h, UInt32.mul_one, UInt32.mul_one] at hprod

theorem eq_zero_of_shiftRight (hpos : 0 < amount) (hlt : amount < 32) (h : word >>> amount = word) :
    word = 0 := by
  have hamount : amount.toNat % 32 ≠ 0 := by
    have hpos' : 0 < amount.toNat := hpos
    have hlt' : amount.toNat < 32 := hlt
    omega
  have hnat := congrArg UInt32.toNat h
  rw [UInt32.toNat_shiftRight, Nat.shiftRight_eq_div_pow] at hnat
  by_contra hne
  have hword : 0 < word.toNat := Nat.pos_of_ne_zero fun h0 => hne (UInt32.toNat_inj.1 h0)
  exact Nat.ne_of_lt (Nat.div_lt_self hword (Nat.one_lt_two_pow hamount)) hnat

/-- Words that have the same sum with their shifts differ by a word that is its own shift. -/
theorem xor_shiftRight_injective (hpos : 0 < amount) (hlt : amount < 32) :
    Function.Injective fun word : UInt32 => word ^^^ (word >>> amount) := by
  intro a b hab
  dsimp only at hab
  have hsum : (a ^^^ b) ^^^ (a ^^^ b) >>> amount = 0 := by
    calc (a ^^^ b) ^^^ (a ^^^ b) >>> amount
        = (a ^^^ a >>> amount) ^^^ (b ^^^ b >>> amount) := by
          rw [UInt32.shiftRight_xor]
          ac_rfl
      _ = 0 := by rw [hab, UInt32.xor_self]
  have hself : (a ^^^ b) >>> amount = a ^^^ b := (UInt32.xor_eq_zero_iff.1 hsum).symm
  exact UInt32.xor_eq_zero_iff.1 (eq_zero_of_shiftRight hpos hlt hself)

theorem toBitVec_rotateLeft (hpos : 0 < amount) (hlt : amount < 32) :
    (rotateLeft word amount).toBitVec = word.toBitVec.rotateLeft amount.toNat := by
  have hpos' : 0 < amount.toNat := hpos
  have hlt' : amount.toNat < 32 := hlt
  have hsub : (32 - amount).toNat = 32 - amount.toNat :=
    UInt32.toNat_sub_of_le _ _ (UInt32.le_of_lt hlt)
  rw [BitVec.rotateLeft_eq_rotateLeftAux_of_lt hlt', BitVec.rotateLeftAux, rotateLeft,
    UInt32.toBitVec_or, UInt32.toBitVec_shiftLeft, UInt32.toBitVec_shiftRight, BitVec.shiftLeft_eq',
    BitVec.ushiftRight_eq']
  congr 2
  · simp [Nat.mod_eq_of_lt hlt']
  · simp
    omega

theorem rotateLeft_injective (hpos : 0 < amount) (hlt : amount < 32) :
    Function.Injective (rotateLeft · amount) := by
  intro a b hab
  have hbits : a.toBitVec.rotateLeft amount.toNat = b.toBitVec.rotateLeft amount.toNat := by
    rw [← toBitVec_rotateLeft hpos hlt, ← toBitVec_rotateLeft hpos hlt]
    exact congrArg UInt32.toBitVec hab
  have hlt' : amount.toNat < 32 := hlt
  refine UInt32.toBitVec_inj.1 (BitVec.eq_of_getLsbD_eq fun i hi => ?_)
  -- The bit at place `i` has moved to the place `i + amount`, and past the end back to the start.
  have hbit := congrArg (BitVec.getLsbD · ((i + amount.toNat) % 32)) hbits
  simp only [BitVec.getLsbD_rotateLeft, Nat.mod_eq_of_lt hlt'] at hbit
  by_cases hwrap : i + amount.toNat < 32
  · have habove : ¬ i + amount.toNat < amount.toNat := by omega
    rw [Nat.mod_eq_of_lt hwrap] at hbit
    simpa [hwrap, habove] using hbit
  · have hmod : (i + amount.toNat) % 32 = i + amount.toNat - 32 := by omega
    have hsource : 32 - amount.toNat + (i + amount.toNat - 32) = i := by omega
    have hbelow : i + amount.toNat - 32 < amount.toNat := by omega
    simpa [hmod, hsource, hbelow] using hbit

end Words

/-! ## Blocks -/

theorem scatter_injective : Function.Injective scatter :=
  (mul_injective 0x56ed309b (by decide)).comp <|
    (rotateLeft_injective (by decide) (by decide)).comp <|
      mul_injective 0xdee13bb1 (by decide)

theorem mix_injective_left (block : UInt32) : Function.Injective (mix · block) := by
  intro a b hab
  have hrotated : rotateLeft (a ^^^ scatter block) 13 = rotateLeft (b ^^^ scatter block) 13 :=
    mul_injective 0xcccccccd (by decide) ((UInt32.add_left_inj _).1 hab)
  exact (UInt32.xor_left_inj _).1 (rotateLeft_injective (by decide) (by decide) hrotated)

theorem mix_injective_right (acc : UInt32) : Function.Injective (mix acc) := by
  intro a b hab
  have hrotated : rotateLeft (acc ^^^ scatter a) 13 = rotateLeft (acc ^^^ scatter b) 13 :=
    mul_injective 0xcccccccd (by decide) ((UInt32.add_left_inj _).1 hab)
  exact scatter_injective <|
    (UInt32.xor_right_inj _).1 (rotateLeft_injective (by decide) (by decide) hrotated)

theorem finish_injective (count : UInt32) : Function.Injective (finish · count) := by
  have hlong : Function.Injective fun word : UInt32 => word ^^^ (word >>> 16) :=
    xor_shiftRight_injective (by decide) (by decide)
  have hshort : Function.Injective fun word : UInt32 => word ^^^ (word >>> 13) :=
    xor_shiftRight_injective (by decide) (by decide)
  intro a b hab
  have hsecond := mul_injective 0x7ed1b41d (by decide) (hlong hab)
  have hfirst := mul_injective 0xa5cb9243 (by decide) (hshort hsecond)
  exact (UInt32.xor_left_inj _).1 (hlong hfirst)

theorem foldl_mix_injective (blocks : List UInt32) :
    Function.Injective fun acc => blocks.foldl mix acc := by
  induction blocks with
  | nil => exact fun _ _ hab => hab
  | cons block rest ih =>
    intro a b hab
    simp only [List.foldl_cons] at hab
    exact mix_injective_left block (ih hab)

theorem digest_ne {a b : UInt32} (hab : a ≠ b) (before after : List UInt32) (count : Nat) :
    digest (before ++ a :: after) count ≠ digest (before ++ b :: after) count := by
  intro h
  have hfolded := finish_injective _ h
  rw [List.foldl_append, List.foldl_append, List.foldl_cons, List.foldl_cons] at hfolded
  exact hab (mix_injective_right _ (foldl_mix_injective after hfolded))

/-! ## Bytes -/

section Bytes

variable {a b c d a' b' c' d' : UInt8}

theorem toNat_or_shiftLeft {low high amount : UInt32} (hamount : amount < 32)
    (hlow : low.toNat < 2 ^ amount.toNat) (hroom : high.toNat * 2 ^ amount.toNat < 2 ^ 32) :
    (low ||| high <<< amount).toNat = low.toNat + high.toNat * 2 ^ amount.toNat := by
  have hlt : amount.toNat < 32 := hamount
  rw [UInt32.toNat_or, UInt32.toNat_shiftLeft, Nat.mod_eq_of_lt hlt, Nat.shiftLeft_eq,
    Nat.mod_eq_of_lt hroom, Nat.or_comm, ← Nat.shiftLeft_eq, ← Nat.shiftLeft_add_eq_or_of_lt hlow,
    Nat.add_comm]

theorem toNat_word : (word a b c d).toNat =
    a.toNat + b.toNat * 2 ^ 8 + c.toNat * 2 ^ 16 + d.toNat * 2 ^ 24 := by
  have ha : a.toUInt32.toNat < 2 ^ 8 := a.toNat_lt
  have hb : b.toUInt32.toNat < 2 ^ 8 := b.toNat_lt
  have hc : c.toUInt32.toNat < 2 ^ 8 := c.toNat_lt
  have hd : d.toUInt32.toNat < 2 ^ 8 := d.toNat_lt
  rw [word, ← a.toNat_toUInt32, ← b.toNat_toUInt32, ← c.toNat_toUInt32, ← d.toNat_toUInt32]
  generalize a.toUInt32 = a, b.toUInt32 = b, c.toUInt32 = c, d.toUInt32 = d at *
  have hab : (a ||| b <<< 8).toNat = a.toNat + b.toNat * 2 ^ 8 :=
    toNat_or_shiftLeft (by decide) ha (by change _ * 2 ^ 8 < _; omega)
  have habc : (a ||| b <<< 8 ||| c <<< 16).toNat =
      a.toNat + b.toNat * 2 ^ 8 + c.toNat * 2 ^ 16 := by
    rw [← hab]
    exact toNat_or_shiftLeft (by decide) (by change _ < 2 ^ 16; omega)
      (by change _ * 2 ^ 16 < _; omega)
  rw [← habc]
  exact toNat_or_shiftLeft (by decide) (by change _ < 2 ^ 24; omega)
    (by change _ * 2 ^ 24 < _; omega)

theorem word_inj (h : word a b c d = word a' b' c' d') : a = a' ∧ b = b' ∧ c = c' ∧ d = d' := by
  have hnat := congrArg UInt32.toNat h
  rw [toNat_word, toNat_word] at hnat
  have := a.toNat_lt
  have := b.toNat_lt
  have := c.toNat_lt
  have := a'.toNat_lt
  have := b'.toNat_lt
  have := c'.toNat_lt
  refine ⟨?_, ?_, ?_, ?_⟩ <;> (rw [← UInt8.toNat_inj]; omega)

end Bytes

/-- Two byte strings of one length that differ, and only within one of the blocks of four bytes they
fall into; the last block may be shorter. -/
def DifferInBlock (as bs : List UInt8) : Prop :=
  as.length = bs.length ∧ as ≠ bs ∧ ∃ block, ∀ j, j / 4 ≠ block → as[j]? = bs[j]?

theorem DifferInBlock.exists_words {as bs : List UInt8} (h : DifferInBlock as bs) :
    ∃ before v w after,
      words as = before ++ v :: after ∧ words bs = before ++ w :: after ∧ v ≠ w := by
  obtain ⟨hlength, hne, block, hsame⟩ := h
  induction as using words.induct generalizing bs block with
  | case1 => exact absurd (List.eq_nil_of_length_eq_zero hlength.symm).symm hne
  | case2 a =>
    obtain ⟨a', rfl⟩ := List.length_eq_one_iff.1 hlength.symm
    refine ⟨[], _, _, [], rfl, rfl, fun h => hne ?_⟩
    obtain ⟨rfl, -⟩ := word_inj h
    rfl
  | case3 a b =>
    obtain ⟨a', b', rfl⟩ := List.length_eq_two.1 hlength.symm
    refine ⟨[], _, _, [], rfl, rfl, fun h => hne ?_⟩
    obtain ⟨rfl, rfl, -⟩ := word_inj h
    rfl
  | case4 a b c =>
    obtain ⟨a', b', c', rfl⟩ := List.length_eq_three.1 hlength.symm
    refine ⟨[], _, _, [], rfl, rfl, fun h => hne ?_⟩
    obtain ⟨rfl, rfl, rfl, -⟩ := word_inj h
    rfl
  | case5 a b c d rest ih =>
    obtain ⟨a', b', c', d', rest', rfl⟩ :
        ∃ a' b' c' d' rest', bs = a' :: b' :: c' :: d' :: rest' := by
      match bs, hlength with
      | a' :: b' :: c' :: d' :: rest', _ => exact ⟨a', b', c', d', rest', rfl⟩
    have hrest (j : Nat) (hj : (j + 4) / 4 ≠ block) : rest[j]? = rest'[j]? := by
      simpa using hsame (j + 4) hj
    cases block with
    | zero =>
      obtain rfl : rest = rest' := List.ext_getElem? fun j => hrest j (by omega)
      refine ⟨[], _, _, words rest, rfl, rfl, fun h => hne ?_⟩
      obtain ⟨rfl, rfl, rfl, rfl⟩ := word_inj h
      rfl
    | succ block =>
      have h₀ := hsame 0 (by omega)
      have h₁ := hsame 1 (by omega)
      have h₂ := hsame 2 (by omega)
      have h₃ := hsame 3 (by omega)
      simp only [List.getElem?_cons_zero, List.getElem?_cons_succ, Option.some.injEq]
        at h₀ h₁ h₂ h₃
      subst h₀ h₁ h₂ h₃
      obtain ⟨before, v, w, after, hv, hw, hvw⟩ :=
        ih (by simpa using hlength) (by simpa using hne) block fun j hj => hrest j (by omega)
      exact ⟨word a b c d :: before, v, w, after, by rw [words, hv]; rfl, by rw [words, hw]; rfl,
        hvw⟩

/-- The hash of a byte string shows any difference within one block. -/
theorem DifferInBlock.bytes_ne {as bs : List UInt8} (h : DifferInBlock as bs) :
    bytes as ≠ bytes bs := by
  obtain ⟨before, v, w, after, hv, hw, hvw⟩ := h.exists_words
  rw [bytes, bytes, hv, hw, h.1]
  exact digest_ne hvw before after _

end IndexedStore.Mixing
