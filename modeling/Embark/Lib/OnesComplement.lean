/-
One's complement arithmetic on words of `w` bits: addition with end-around carry, sums of many
words, and the representative of a number among the words, which any way of folding carries back
computes.
-/
import Mathlib.Data.Nat.ModEq
import Mathlib.Algebra.BigOperators.Group.List.Basic
import Mathlib.Tactic.Ring

namespace Embark

namespace OnesComplement

/-- Addition with end-around carry. -/
def add (w a b : Nat) : Nat := if a + b < 2 ^ w then a + b else a + b - 2 ^ w + 1

/-- The one's complement sum of words. -/
def sum (w : Nat) (xs : List Nat) : Nat := xs.foldl (add w) 0

/-- The word a number folds to: zero only for zero. -/
def fold (w x : Nat) : Nat := if x = 0 then 0 else (x - 1) % (2 ^ w - 1) + 1

section Fold

variable {w x y : Nat}

@[simp] theorem fold_zero : fold w 0 = 0 := rfl

theorem fold_pos (hx : 0 < x) : 0 < fold w x := by
  rw [fold, if_neg (by omega)]
  omega

theorem fold_lt (hw : 2 ≤ 2 ^ w) (x : Nat) : fold w x < 2 ^ w := by
  unfold fold
  split_ifs
  · omega
  · have := Nat.mod_lt (x - 1) (show 0 < 2 ^ w - 1 by omega)
    omega

theorem fold_modEq (w x : Nat) : fold w x ≡ x [MOD 2 ^ w - 1] := by
  unfold fold
  split_ifs with h
  · rw [h]
  · have hmod : (x - 1) % (2 ^ w - 1) + 1 ≡ x - 1 + 1 [MOD 2 ^ w - 1] := (Nat.mod_modEq _ _).add_right 1
    rwa [Nat.sub_add_cancel (by omega)] at hmod

/-- The word is determined by its residue and by whether it is zero. -/
theorem fold_unique (hw : 2 ≤ 2 ^ w) (hy : y < 2 ^ w) (hzero : y = 0 ↔ x = 0) (h : y ≡ x [MOD 2 ^ w - 1]) :
    fold w x = y := by
  unfold fold
  split_ifs with hx
  · exact (hzero.2 hx).symm
  · have hy0 : y ≠ 0 := fun h => hx (hzero.1 h)
    have hpred : x - 1 ≡ y - 1 [MOD 2 ^ w - 1] := by
      apply Nat.ModEq.add_right_cancel' 1
      rw [Nat.sub_add_cancel (by omega), Nat.sub_add_cancel (by omega)]
      exact h.symm
    rw [hpred, Nat.mod_eq_of_lt (by omega), Nat.sub_add_cancel (by omega)]

theorem fold_of_lt (hw : 2 ≤ 2 ^ w) (hx : x < 2 ^ w) : fold w x = x := fold_unique hw hx Iff.rfl rfl

theorem fold_eq_zero_iff : fold w x = 0 ↔ x = 0 :=
  ⟨fun h => by_contra fun hx => (fold_pos (Nat.pos_of_ne_zero hx)).ne' h, fun h => by rw [h, fold_zero]⟩

theorem fold_congr (hw : 2 ≤ 2 ^ w) (hzero : x = 0 ↔ y = 0) (h : x ≡ y [MOD 2 ^ w - 1]) : fold w x = fold w y :=
  fold_unique hw (fold_lt hw y) (fold_eq_zero_iff.trans hzero.symm) ((fold_modEq w y).trans h.symm)

theorem fold_fold_add (hw : 2 ≤ 2 ^ w) (x y : Nat) : fold w (fold w x + y) = fold w (x + y) := by
  refine fold_congr hw ?_ ((fold_modEq w x).add_right y)
  rw [Nat.add_eq_zero_iff, Nat.add_eq_zero_iff, fold_eq_zero_iff]

/-- Adding the carries to the low word leaves the representative. -/
theorem fold_carry (hw : 2 ≤ 2 ^ w) (x : Nat) : fold w (x % 2 ^ w + x / 2 ^ w) = fold w x := by
  have hdiv := Nat.mod_add_div x (2 ^ w)
  have hone : 2 ^ w ≡ 1 [MOD 2 ^ w - 1] := by
    have h := (Nat.modEq_iff_dvd' (n := 2 ^ w - 1) (show 1 ≤ 2 ^ w by omega)).2 dvd_rfl
    exact h.symm
  refine fold_congr hw ?_ ?_
  · constructor
    · intro h
      rw [Nat.add_eq_zero_iff] at h
      rw [← hdiv, h.1, h.2, Nat.mul_zero]
    · rintro rfl
      rw [Nat.zero_mod, Nat.zero_div]
  · have hcarry := (hone.mul_right (x / 2 ^ w)).add_left (x % 2 ^ w)
    rw [hdiv, Nat.one_mul] at hcarry
    exact hcarry.symm

/-- All ones is the representative of the positive multiples of the modulus. -/
theorem fold_eq_ones_iff (hw : 2 ≤ 2 ^ w) : fold w x = 2 ^ w - 1 ↔ 0 < x ∧ x ≡ 0 [MOD 2 ^ w - 1] := by
  constructor
  · intro h
    refine ⟨Nat.pos_of_ne_zero fun hx => ?_, ?_⟩
    · rw [hx, fold_zero] at h
      omega
    · have hmod := (fold_modEq w x).symm
      rw [h] at hmod
      exact hmod.trans (Nat.modEq_zero_iff_dvd.2 dvd_rfl)
  · rintro ⟨hpos, hmod⟩
    refine fold_unique hw (by omega) ⟨by omega, by omega⟩ ?_
    exact (Nat.modEq_zero_iff_dvd.2 dvd_rfl).trans hmod.symm

/-- End-around carry folds the plain sum. -/
theorem add_eq_fold (hw : 2 ≤ 2 ^ w) (hx : x < 2 ^ w) (hy : y < 2 ^ w) : add w x y = fold w (x + y) := by
  unfold add
  split_ifs with h
  · exact (fold_of_lt hw h).symm
  · refine (fold_unique hw (by omega) ⟨by omega, by omega⟩ ?_).symm
    have hsum : x + y = x + y - 2 ^ w + 1 + (2 ^ w - 1) := by omega
    conv_rhs => rw [hsum]
    exact Nat.add_mod_right .. |>.symm

theorem foldl_add_eq_fold (hw : 2 ≤ 2 ^ w) :
    ∀ {xs : List Nat} {a : Nat}, a < 2 ^ w → (∀ x ∈ xs, x < 2 ^ w) → xs.foldl (add w) a = fold w (a + xs.sum)
  | [], a, ha, _ => by rw [List.foldl_nil, List.sum_nil, Nat.add_zero, fold_of_lt hw ha]
  | x :: xs, a, ha, hxs => by
    have hx := hxs x (by simp)
    rw [List.foldl_cons, add_eq_fold hw ha hx,
      foldl_add_eq_fold hw (fold_lt hw _) fun y hy => hxs y (List.mem_cons_of_mem x hy), fold_fold_add hw,
      List.sum_cons, Nat.add_assoc]

/-- A one's complement sum folds the plain sum. -/
theorem sum_eq_fold (hw : 2 ≤ 2 ^ w) {xs : List Nat} (hxs : ∀ x ∈ xs, x < 2 ^ w) : sum w xs = fold w xs.sum := by
  rw [sum, foldl_add_eq_fold hw (by omega) hxs, Nat.zero_add]

end Fold

end OnesComplement

end Embark
