/-
`ope_tree.h`: the order-preserving encryption on top of the scapegoat tree. A stored key is
encrypted by its position: the path from the root, one bit per step, followed by a one and zeros.
A value is encrypted by a random number between the codes of its two neighbours in the tree.
-/
import Embark.Lib.Dyadic
import Embark.Tree.Scapegoat
import Mathlib.Data.Stream.Defs
import Mathlib.Tactic.Ring

namespace Embark

open BinTree

/-- `uint128_t`. -/
abbrev U128 := BitVec 128

/-- `std::mt19937_64`, by the 64-bit words its next calls return. -/
abbrev Engine := Stream' (BitVec 64)

/-- `random128`. -/
def random128 (engine : Engine) : U128 × Engine :=
  let x0 : U128 := engine.head.setWidth 128
  let x1 : U128 := engine.tail.head.setWidth 128
  (x0 ||| (x1 <<< 64), engine.tail.tail)

/-- `random_bound`. -/
def randomBound (engine : Engine) (low high : U128) : U128 × Engine :=
  let (x, engine) := random128 engine
  (x % (high - low) + low, engine)

/-- `OPETree`: the search tree and the engine that draws the ciphertexts. -/
structure OPETree (α : Type) extends ScapegoatTree α where
  prng : Engine

namespace OPETree

variable {α : Type} [LinearOrder α]

/-- The walk of `max_ciphertext_less_equal_than` below the node reached by `currentPath`: the path
to the last node on it with `x <= v`, if any (`max`, `path` and `path_length` of the source). -/
def maxWalk (v : α) : BinTree α → U128 → Nat → Option (U128 × Nat) → Option (U128 × Nat)
  | nil, _, _, max => max
  | node left x right, currentPath, currentPathLength, max =>
    if x ≤ v then
      maxWalk v right (currentPath <<< 1 ||| 1) (currentPathLength + 1) (some (currentPath, currentPathLength))
    else maxWalk v left (currentPath <<< 1) (currentPathLength + 1) max

/-- The walk of `min_ciphertext_greater_than`, with the last node on it with `x > v`. -/
def minWalk (v : α) : BinTree α → U128 → Nat → Option (U128 × Nat) → Option (U128 × Nat)
  | nil, _, _, min => min
  | node left x right, currentPath, currentPathLength, min =>
    if v < x then
      minWalk v left (currentPath <<< 1) (currentPathLength + 1) (some (currentPath, currentPathLength))
    else minWalk v right (currentPath <<< 1 ||| 1) (currentPathLength + 1) min

/-- The number a path stands for: its bits, a one, and zeros up to 128 bits. The path lengths of a
built tree are at most 54, so the shift count stays within the word. -/
def pathCode (path : U128) (pathLength : Nat) : U128 :=
  let path := path <<< 1 ||| 1
  let pathLength := pathLength + 1
  path <<< (128 - pathLength)

/-- `max_ciphertext_less_equal_than`. -/
def maxCiphertextLessEqualThan (t : ScapegoatTree α) (v : α) : U128 :=
  match maxWalk v t.r 0 0 none with
  | none => 0
  | some (path, pathLength) => pathCode path pathLength

/-- `min_ciphertext_greater_than`; without a greater key the `int` `~0` widens to all ones. -/
def minCiphertextGreaterThan (t : ScapegoatTree α) (v : α) : U128 :=
  match minWalk v t.r 0 0 none with
  | none => BitVec.allOnes 128
  | some (path, pathLength) => pathCode path pathLength

/-- `ciphertext_range`. -/
def ciphertextRange (t : ScapegoatTree α) (v : α) : U128 × U128 :=
  (maxCiphertextLessEqualThan t v, minCiphertextGreaterThan t v)

/-- `generate_ciphertext`: a random number out of the gap of `v`, and the tree with its engine
advanced. -/
def generateCiphertext (t : OPETree α) (v : α) : U128 × OPETree α :=
  let low := maxCiphertextLessEqualThan t.toScapegoatTree v
  let high := minCiphertextGreaterThan t.toScapegoatTree v
  let (c, prng) := randomBound t.prng low high
  (c, { t with prng })

/-- The ciphertext of a stored endpoint: the first component of its range. -/
def endpointCiphertext (t : ScapegoatTree α) (x : α) : U128 := (ciphertextRange t x).1

/-! ## Paths as dyadic codes -/

theorem path_left {p : U128} {k : Nat} (hp : p.toNat < 2 ^ k) (hk : k < 128) :
    (p <<< 1).toNat = 2 * p.toNat := by
  have : 2 ^ (k + 1) ≤ 2 ^ 128 := Nat.pow_le_pow_right (by omega) hk
  rw [BitVec.toNat_shiftLeft, Nat.shiftLeft_eq, Nat.mod_eq_of_lt (by rw [Nat.pow_succ] at this; omega)]
  omega

theorem path_right {p : U128} {k : Nat} (hp : p.toNat < 2 ^ k) (hk : k < 128) :
    (p <<< 1 ||| 1).toNat = 2 * p.toNat + 1 := by
  rw [BitVec.toNat_or, path_left hp hk, ← Nat.two_pow_add_eq_or_of_lt (i := 1) (by decide)]
  rfl

/-- The code of a path of `k` bits lies in the middle of the interval the path leads to. -/
theorem pathCode_toNat {p : U128} {k : Nat} (hp : p.toNat < 2 ^ k) (hk : k < 128) :
    (pathCode p k).toNat = p.toNat * 2 ^ (128 - k) + 2 ^ (128 - k - 1) := by
  have hsplit : 2 ^ (128 - k) = 2 * 2 ^ (128 - k - 1) := by
    rw [← Nat.pow_succ']; congr 1; omega
  have hfull : 2 ^ (k + 1) * 2 ^ (128 - k - 1) = 2 ^ 128 := by rw [← Nat.pow_add]; congr 1; omega
  have hlt : (2 * p.toNat + 1) * 2 ^ (128 - k - 1) < 2 ^ 128 := by
    rw [← hfull, Nat.pow_succ]
    exact Nat.mul_lt_mul_of_pos_right (by omega) (Nat.pow_pos (by omega))
  simp only [pathCode]
  rw [BitVec.toNat_shiftLeft, path_right hp hk, Nat.shiftLeft_eq, Nat.sub_sub, Nat.mod_eq_of_lt
    (by rw [← Nat.sub_sub]; exact hlt), ← Nat.sub_sub, hsplit]
  ring

/-! ## The two walks -/

/-- The walk state inside the tree: `k` steps down, with the code interval the path leads to. -/
structure At (t : BinTree α) (p : U128) (k : Nat) : Prop where
  bits : p.toNat < 2 ^ k
  height : k + t.height ≤ 127
  ordered : t.Ordered

/-- The code of a key in the subtree that the path `p` of `k` steps leads to. -/
def codeBelow (t : BinTree α) (p : U128) (k : Nat) (x : α) : ℕ := codeAt (128 - k) (p.toNat * 2 ^ (128 - k)) t x

theorem At.left {l r : BinTree α} {x : α} {p : U128} {k : Nat} (h : At (node l x r) p k) :
    At l (p <<< 1) (k + 1) := by
  have hh := h.height
  have hb := h.bits
  rw [height_node] at hh
  exact ⟨by rw [path_left hb (by omega), Nat.pow_succ]; omega, by omega, (ordered_node.1 h.ordered).1⟩

theorem At.right {l r : BinTree α} {x : α} {p : U128} {k : Nat} (h : At (node l x r) p k) :
    At r (p <<< 1 ||| 1) (k + 1) := by
  have hh := h.height
  have hb := h.bits
  rw [height_node] at hh
  exact ⟨by rw [path_right hb (by omega), Nat.pow_succ]; omega, by omega, (ordered_node.1 h.ordered).2.1⟩

section Steps

variable {l r : BinTree α} {x v : α} {p : U128} {k : Nat}

theorem codeBelow_left (h : At (node l x r) p k) (hv : v < x) :
    codeBelow (node l x r) p k v = codeBelow l (p <<< 1) (k + 1) v := by
  have hh := h.height
  rw [height_node] at hh
  have hs : 2 ^ (128 - k) = 2 * 2 ^ (128 - k - 1) := by rw [← Nat.pow_succ']; congr 1; omega
  unfold codeBelow
  rw [codeAt_left hv, path_left h.bits (by omega), ← Nat.sub_sub, hs]
  congr 1
  ring

theorem codeBelow_right (h : At (node l x r) p k) (hv : x < v) :
    codeBelow (node l x r) p k v = codeBelow r (p <<< 1 ||| 1) (k + 1) v := by
  have hh := h.height
  rw [height_node] at hh
  have hs : 2 ^ (128 - k) = 2 * 2 ^ (128 - k - 1) := by rw [← Nat.pow_succ']; congr 1; omega
  unfold codeBelow
  rw [codeAt_right hv, path_right h.bits (by omega), ← Nat.sub_sub, hs]
  congr 1
  ring

theorem codeBelow_root (h : At (node l x r) p k) :
    codeBelow (node l x r) p k x = (pathCode p k).toNat := by
  have hh := h.height
  rw [height_node] at hh
  unfold codeBelow
  rw [codeAt_root, pathCode_toNat h.bits (by omega)]

end Steps

/-- The walk to the left of `v` ends with the path of the greatest key at or below `v`. -/
theorem maxWalk_spec (v : α) : ∀ {t : BinTree α} {p : U128} {k : Nat} (max : Option (U128 × Nat)), At t p k →
    (maxWalk v t p k max = max ∧ ∀ y ∈ t.keys, v < y) ∨
      ∃ x ∈ t.keys, x ≤ v ∧ (∀ y ∈ t.keys, y ≤ v → y ≤ x) ∧
        ∃ q j, maxWalk v t p k max = some (q, j) ∧ (pathCode q j).toNat = codeBelow t p k x
  | nil, p, k, max, _ => .inl ⟨rfl, by simp⟩
  | node l x r, p, k, max, h => by
    obtain ⟨-, -, hlx, hxr, -⟩ := ordered_node.1 h.ordered
    rw [maxWalk]
    split
    · rename_i hxv
      right
      -- the walk remembers `x` and goes right, where a greater key may still be at most `v`
      rcases maxWalk_spec v (some (p, k)) h.right with ⟨he, hgt⟩ | ⟨y, hy, hyv, hmax, q, j, he, hc⟩
      · refine ⟨x, by simp, hxv, fun y hy hyv => ?_, p, k, he, (codeBelow_root h).symm⟩
        rw [mem_keys_node] at hy
        rcases hy with hy | rfl | hy
        · exact (hlx y hy).le
        · exact le_rfl
        · exact absurd hyv (not_le.2 (hgt y hy))
      · refine ⟨y, by simp [hy], hyv, fun z hz hzv => ?_, q, j, he, by rw [hc, codeBelow_right h (hxr y hy)]⟩
        rw [mem_keys_node] at hz
        rcases hz with hz | rfl | hz
        · exact ((hlx z hz).trans (hxr y hy)).le
        · exact (hxr y hy).le
        · exact hmax z hz hzv
    · rename_i hxv
      have hvx := not_le.1 hxv
      -- `x` and the keys to its right are above `v`
      rcases maxWalk_spec v max h.left with ⟨he, hgt⟩ | ⟨y, hy, hyv, hmax, q, j, he, hc⟩
      · refine .inl ⟨he, fun y hy => ?_⟩
        rw [mem_keys_node] at hy
        rcases hy with hy | rfl | hy
        · exact hgt y hy
        · exact hvx
        · exact hvx.trans (hxr y hy)
      · refine .inr ⟨y, by simp [hy], hyv, fun z hz hzv => ?_, q, j, he, by rw [hc, codeBelow_left h (hlx y hy)]⟩
        rw [mem_keys_node] at hz
        rcases hz with hz | rfl | hz
        · exact hmax z hz hzv
        · exact absurd hzv hxv
        · exact absurd hzv (not_le.2 (hvx.trans (hxr z hz)))

/-- The walk to the right of `v` ends with the path of the least key above `v`. -/
theorem minWalk_spec (v : α) : ∀ {t : BinTree α} {p : U128} {k : Nat} (min : Option (U128 × Nat)), At t p k →
    (minWalk v t p k min = min ∧ ∀ y ∈ t.keys, y ≤ v) ∨
      ∃ x ∈ t.keys, v < x ∧ (∀ y ∈ t.keys, v < y → x ≤ y) ∧
        ∃ q j, minWalk v t p k min = some (q, j) ∧ (pathCode q j).toNat = codeBelow t p k x
  | nil, p, k, min, _ => .inl ⟨rfl, by simp⟩
  | node l x r, p, k, min, h => by
    obtain ⟨-, -, hlx, hxr, -⟩ := ordered_node.1 h.ordered
    rw [minWalk]
    split
    · rename_i hvx
      right
      rcases minWalk_spec v (some (p, k)) h.left with ⟨he, hle⟩ | ⟨y, hy, hvy, hmin, q, j, he, hc⟩
      · refine ⟨x, by simp, hvx, fun y hy hvy => ?_, p, k, he, (codeBelow_root h).symm⟩
        rw [mem_keys_node] at hy
        rcases hy with hy | rfl | hy
        · exact absurd hvy (not_lt.2 (hle y hy))
        · exact le_rfl
        · exact (hxr y hy).le
      · refine ⟨y, by simp [hy], hvy, fun z hz hvz => ?_, q, j, he, by rw [hc, codeBelow_left h (hlx y hy)]⟩
        rw [mem_keys_node] at hz
        rcases hz with hz | rfl | hz
        · exact hmin z hz hvz
        · exact (hlx y hy).le
        · exact ((hlx y hy).trans (hxr z hz)).le
    · rename_i hvx
      have hxv := not_lt.1 hvx
      rcases minWalk_spec v min h.right with ⟨he, hle⟩ | ⟨y, hy, hvy, hmin, q, j, he, hc⟩
      · refine .inl ⟨he, fun y hy => ?_⟩
        rw [mem_keys_node] at hy
        rcases hy with hy | rfl | hy
        · exact ((hlx y hy).trans_le hxv).le
        · exact hxv
        · exact hle y hy
      · refine .inr ⟨y, by simp [hy], hvy, fun z hz hvz => ?_, q, j, he, by rw [hc, codeBelow_right h (hxr y hy)]⟩
        rw [mem_keys_node] at hz
        rcases hz with hz | rfl | hz
        · exact absurd hvz (not_lt.2 ((hlx z hz).trans_le hxv).le)
        · exact absurd hvz hvx
        · exact hmin z hz hvz

end OPETree

end Embark
