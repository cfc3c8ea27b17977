/-
Blocks of words: all words of one width that share their first bits. Masking a word with those bits
set gives the first word of its block, and setting all other bits the last one.
-/
import Mathlib.Data.BitVec
import Mathlib.Tactic.Ring

namespace Embark

namespace Block

variable {w : Nat}

/-- The mask of the first `len` bits. -/
def mask (w len : Nat) : BitVec w := BitVec.allOnes w <<< (w - len)

/-- The first word of the block of `a`. -/
def first (a : BitVec w) (len : Nat) : BitVec w := BitVec.ofNat w (a.toNat / 2 ^ (w - len) * 2 ^ (w - len))

/-- The last word of the block of `a`. -/
def last (a : BitVec w) (len : Nat) : BitVec w :=
  BitVec.ofNat w (a.toNat / 2 ^ (w - len) * 2 ^ (w - len) + (2 ^ (w - len) - 1))

variable (a : BitVec w) (len : Nat)

theorem toNat_first : (first a len).toNat = a.toNat / 2 ^ (w - len) * 2 ^ (w - len) := by
  have := a.isLt
  have hle := Nat.div_mul_le_self a.toNat (2 ^ (w - len))
  unfold first
  rw [BitVec.toNat_ofNat, Nat.mod_eq_of_lt (by omega)]

theorem toNat_last : (last a len).toNat = a.toNat / 2 ^ (w - len) * 2 ^ (w - len) + (2 ^ (w - len) - 1) := by
  -- the block ends where the next one starts, at a multiple that is at most `2 ^ w`
  have hpow : 2 ^ w = 2 ^ (w - (w - len)) * 2 ^ (w - len) := by
    rw [← Nat.pow_add]
    congr 1
    omega
  have hpos : 0 < 2 ^ (w - len) := Nat.pow_pos (by decide)
  have hlt : a.toNat / 2 ^ (w - len) < 2 ^ (w - (w - len)) := by
    rw [Nat.div_lt_iff_lt_mul hpos, ← hpow]
    exact a.isLt
  have hnext : (a.toNat / 2 ^ (w - len) + 1) * 2 ^ (w - len) ≤ 2 ^ w := by
    rw [hpow]
    exact Nat.mul_le_mul_right _ hlt
  rw [Nat.add_mul, Nat.one_mul] at hnext
  unfold last
  rw [BitVec.toNat_ofNat, Nat.mod_eq_of_lt (by omega)]

/-- A block does not end before it starts. -/
theorem first_le_last : first a len ≤ last a len := by
  rw [BitVec.le_def, toNat_first, toNat_last]
  omega

/-- The words of a block are those with the same first bits. -/
theorem mem_iff (x : BitVec w) :
    (first a len ≤ x ∧ x ≤ last a len) ↔ x.toNat / 2 ^ (w - len) = a.toNat / 2 ^ (w - len) := by
  have hpos : 0 < 2 ^ (w - len) := Nat.pow_pos (by decide)
  rw [BitVec.le_def, BitVec.le_def, toNat_first, toNat_last]
  constructor
  · rintro ⟨hlo, hhi⟩
    refine Nat.div_eq_of_lt_le hlo ?_
    rw [Nat.add_mul, Nat.one_mul]
    omega
  · intro h
    have hdiv := Nat.div_add_mod x.toNat (2 ^ (w - len))
    have hmod := Nat.mod_lt x.toNat hpos
    rw [h, Nat.mul_comm] at hdiv
    omega

/-- The whole block of the full length is its one word. -/
theorem first_full : first a w = a := by
  apply BitVec.eq_of_toNat_eq
  rw [toNat_first, Nat.sub_self, Nat.pow_zero, Nat.div_one, Nat.mul_one]

theorem last_full : last a w = a := by
  apply BitVec.eq_of_toNat_eq
  rw [toNat_last, Nat.sub_self, Nat.pow_zero, Nat.div_one, Nat.mul_one]
  rfl

/-- Two words have one block exactly when they share its bits. -/
theorem first_eq_iff (b : BitVec w) : first a len = first b len ↔
    a.toNat / 2 ^ (w - len) = b.toNat / 2 ^ (w - len) := by
  have hpos : 0 < 2 ^ (w - len) := Nat.pow_pos (by decide)
  constructor
  · intro h
    have hnat := congrArg BitVec.toNat h
    rw [toNat_first, toNat_first] at hnat
    exact Nat.eq_of_mul_eq_mul_right hpos hnat
  · intro h
    unfold first
    rw [h]

theorem last_eq_of_first_eq {a b : BitVec w} {len : Nat} (h : first a len = first b len) : last a len = last b len := by
  unfold last
  rw [(first_eq_iff a len b).1 h]

/-! ## By masks -/

/-- Masking a word gives the first word of its block. -/
theorem and_mask : a &&& mask w len = first a len := by
  have hshift : a &&& mask w len = a >>> (w - len) <<< (w - len) := by
    unfold mask
    ext i hi
    simp only [BitVec.getElem_and, BitVec.getElem_shiftLeft, BitVec.getElem_allOnes, BitVec.getElem_ushiftRight]
    by_cases h : i < w - len
    · simp [h]
    · rw [show w - len + (i - (w - len)) = i by omega, BitVec.getLsbD_eq_getElem hi]
      simp [h]
  apply BitVec.eq_of_toNat_eq
  have hle := Nat.div_mul_le_self a.toNat (2 ^ (w - len))
  have := a.isLt
  rw [hshift, toNat_first, BitVec.toNat_shiftLeft, BitVec.toNat_ushiftRight, Nat.shiftRight_eq_div_pow,
    Nat.shiftLeft_eq, Nat.mod_eq_of_lt (by omega)]

theorem toNat_not_mask : (~~~mask w len).toNat = 2 ^ (w - len) - 1 := by
  have hpow : 2 ^ w = 2 ^ (w - (w - len)) * 2 ^ (w - len) := by
    rw [← Nat.pow_add]
    congr 1
    omega
  have hnot : ~~~mask w len = BitVec.allOnes w >>> (w - (w - len)) := by
    unfold mask
    ext i hi
    simp only [BitVec.getElem_not, BitVec.getElem_shiftLeft, BitVec.getElem_allOnes, BitVec.getElem_ushiftRight,
      BitVec.getLsbD_allOnes]
    by_cases h : i < w - len
    · simp [h]
      omega
    · simp [h]
      omega
  have hpos : 0 < 2 ^ (w - (w - len)) := Nat.pow_pos (by decide)
  have hdiv := Nat.mul_sub_div 0 (2 ^ (w - (w - len))) (2 ^ (w - len)) (Nat.mul_pos hpos (Nat.pow_pos (by decide)))
  rw [Nat.zero_div, Nat.zero_add] at hdiv
  rw [hnot, BitVec.toNat_ushiftRight, BitVec.toNat_allOnes, Nat.shiftRight_eq_div_pow, hpow]
  exact hdiv

/-- Setting the bits outside the mask gives the last word of the block. -/
theorem or_not_mask : first a len ||| ~~~mask w len = last a len := by
  have hpos : 0 < 2 ^ (w - len) := Nat.pow_pos (by decide)
  apply BitVec.eq_of_toNat_eq
  rw [BitVec.toNat_or, toNat_not_mask, toNat_first, toNat_last, Nat.mul_comm,
    ← Nat.two_pow_add_eq_or_of_lt (by omega)]

end Block

end Embark
