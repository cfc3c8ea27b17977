/-
Machine integers as the C++ sources use them: the checked signed 32-bit `int`, and the unsigned
order of bit vectors as a linear order, so that fixed-width words can be search keys.
-/
import Mathlib.Data.BitVec
import Mathlib.Order.Defs.LinearOrder

namespace Embark

/-- A result of `int` arithmetic: signed overflow is undefined behaviour, here `none`. -/
def int32 (z : Int) : Option Int := if -2 ^ 31 ≤ z ∧ z < 2 ^ 31 then some z else none

theorem int32_eq_some {z y : Int} : int32 z = some y ↔ (-2 ^ 31 ≤ z ∧ z < 2 ^ 31) ∧ z = y := by
  unfold int32; split <;> simp_all

theorem int32_of_range {z : Int} (h0 : -2 ^ 31 ≤ z) (h : z < 2 ^ 31) : int32 z = some z := if_pos ⟨h0, h⟩

theorem int32_of_lt {z : Int} (h0 : 0 ≤ z) (h : z < 2 ^ 31) : int32 z = some z := by
  rw [int32_eq_some]; omega

/-- Unsigned comparison of words of one width. -/
instance bitVecLinearOrder {w : Nat} : LinearOrder (BitVec w) where
  le_refl := BitVec.le_refl
  le_trans _ _ _ := BitVec.le_trans
  le_antisymm _ _ := BitVec.le_antisymm
  le_total := BitVec.le_total
  lt_iff_le_not_ge a b := by rw [BitVec.not_le]; exact ⟨fun h => ⟨BitVec.le_of_lt h, h⟩, And.right⟩
  toDecidableLE := inferInstance
  toDecidableEq := inferInstance
  toDecidableLT := inferInstance

end Embark
