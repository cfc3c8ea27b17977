/-
The height of the tree and the arithmetic of the ciphertexts. A node's code is its path, shifted to
the top of a 128-bit word; as long as every `add` finds its scapegoat, no node lies deeper than the
logarithm of the number of keys, so the shifts stay within the word and every gap is open.
-/
import Embark.Ope.Gaps
import Embark.Tree.Spine

namespace Embark

open BinTree

namespace OPETree

variable {α : Type} [LinearOrder α]

open ScapegoatTree (Built SearchFits)

/-! ## The walks -/

theorem maxWalk_length_lt {v : α} {j m : Nat} : ∀ {t : BinTree α} {p : U128} {k : Nat} {max : Option (U128 × Nat)}
    {q : U128}, maxWalk v t p k max = some (q, j) → (∀ q j, max = some (q, j) → j < m) →
    k + t.height ≤ m → j < m
  | nil, p, k, max, q, h, hmax, _ => hmax q j h
  | node l x r, p, k, max, q, h, hmax, hk => by
    rw [height_node] at hk
    rw [maxWalk] at h
    split at h
    · refine maxWalk_length_lt h ?_ (by omega)
      rintro q' j' hqj
      obtain ⟨-, rfl⟩ := Prod.mk.inj (Option.some.inj hqj)
      omega
    · exact maxWalk_length_lt h hmax (by omega)

theorem minWalk_length_lt {v : α} {j m : Nat} : ∀ {t : BinTree α} {p : U128} {k : Nat} {min : Option (U128 × Nat)}
    {q : U128}, minWalk v t p k min = some (q, j) → (∀ q j, min = some (q, j) → j < m) →
    k + t.height ≤ m → j < m
  | nil, p, k, min, q, h, hmin, _ => hmin q j h
  | node l x r, p, k, min, q, h, hmin, hk => by
    rw [height_node] at hk
    rw [minWalk] at h
    split at h
    · refine minWalk_length_lt h ?_ (by omega)
      rintro q' j' hqj
      obtain ⟨-, rfl⟩ := Prod.mk.inj (Option.some.inj hqj)
      omega
    · exact minWalk_length_lt h hmin (by omega)

/-! ## Trees with their arithmetic in range -/

/-- The arithmetic of the ciphertexts of a tree is in range: no node lies deeper than `log32 q`, no
walk gets further than 128 steps, both walks end with a path of at most 128 bits, which they shift
by 0 to 127, and the bounds of every gap are in order, so that `random_bound` divides by a number
other than zero. -/
structure InRange (t : ScapegoatTree α) : Prop where
  depth : ∀ ctx l x r, zip ctx (node l x r) = t.r → ctx.length ≤ log32 t.q
  position : ∀ ctx s, zip ctx s = t.r → ctx.length ≤ 128
  maxShift : ∀ v path pathLength, maxWalk v t.r 0 0 none = some (path, pathLength) →
    pathLength + 1 ≤ 128 ∧ 128 - (pathLength + 1) ≤ 127
  minShift : ∀ v path pathLength, minWalk v t.r 0 0 none = some (path, pathLength) →
    pathLength + 1 ≤ 128 ∧ 128 - (pathLength + 1) ≤ 127
  range : ∀ v, (ciphertextRange t v).1 < (ciphertextRange t v).2
  modulus : ∀ v, minCiphertextGreaterThan t v - maxCiphertextLessEqualThan t v ≠ 0

/-- The arithmetic of every reachable tree is in range. -/
theorem inRange_of_wf {t : ScapegoatTree α} (hw : t.WF) : InRange t where
  depth ctx l x r h := hw.depth_le h
  position ctx s h := by
    have hheight := ScapegoatTree.height_wf hw
    have hle := length_le_height_zip ctx s
    rw [h] at hle
    omega
  maxShift v path pathLength h := by
    have hheight := ScapegoatTree.height_wf hw
    have hlt : pathLength < 54 := maxWalk_length_lt h (by simp) (by omega)
    omega
  minShift v path pathLength h := by
    have hheight := ScapegoatTree.height_wf hw
    have hlt : pathLength < 54 := minWalk_length_lt h (by simp) (by omega)
    omega
  range v := by
    rw [BitVec.lt_def, toNat_range_fst hw, toNat_range_snd hw]
    exact Scale.lo_lt_hi v
  modulus v h := by
    have hlt : maxCiphertextLessEqualThan t v < minCiphertextGreaterThan t v := by
      rw [BitVec.lt_def, toNat_max hw, toNat_min hw]
      exact Scale.lo_lt_hi v
    have hzero := congrArg BitVec.toNat h
    rw [BitVec.toNat_sub_of_le (BitVec.le_of_lt hlt)] at hzero
    rw [BitVec.lt_def] at hlt
    simp only [BitVec.ofNat_eq_ofNat, BitVec.toNat_ofNat, Nat.zero_mod] at hzero
    omega

/-- Every call of the run completes, which is to say that its rebalancing finds a scapegoat, and
leaves a tree with its arithmetic in range. -/
def HeightKept (xs : List α) : Prop := ∀ ys, ys <+: xs → ∃ t, Built ys t ∧ InRange t

/-- A run keeps the height exactly when the search of each of its calls fits an `int`. -/
theorem heightKept_iff {xs : List α} (hlen : xs.length < 2 ^ 31) :
    HeightKept xs ↔ ∀ ys y, ys ++ [y] <+: xs → ∀ t, Built ys t → t.SearchFits y := by
  rw [← ScapegoatTree.built_prefixes_iff hlen]
  refine forall₂_congr fun ys _ => exists_congr fun t => ?_
  exact ⟨And.left, fun h => ⟨h, inRange_of_wf (ScapegoatTree.built_wf h)⟩⟩

theorem heightKept_iff_fullPortRange : HeightKept ([0, 65535] : List (BitVec 16)) :=
  (heightKept_iff (by decide)).2 (ScapegoatTree.runFits_of_short (by decide))

/-- Runs of at most 715827882 calls keep the height. -/
theorem heightKept_of_short {xs : List α} (hlen : 3 * xs.length < 2 ^ 31) : HeightKept xs := by
  intro ys hys
  have hfits := ScapegoatTree.runFits_of_short hlen
  obtain ⟨t, ht⟩ := (ScapegoatTree.built_prefixes_iff (by omega)).2 hfits ys hys
  exact ⟨t, ht, inRange_of_wf (ScapegoatTree.built_wf ht)⟩

/-! ## A run that fails -/

/-- The sizes of the left subtrees along a path on which every subtree, counted with one more node,
holds two thirds of its parent, from a subtree of `s` nodes on. -/
def thirds : Nat → Nat → List Nat
  | 0, _ => []
  | k + 1, s => (s - 1 - 2 * s / 3) :: thirds k (2 * s / 3)

/-- Three nodes above such a path. With one more node the subtree below them has 715827883, the least
number whose triple is no `int`. -/
def deepSizes : List Nat := [0, 0, 0] ++ thirds 49 715827883

/-- The first `n` addresses. -/
def addresses (n : Nat) : List (BitVec 32) := (List.range n).map (BitVec.ofNat 32)

/-- The tree of those sizes. -/
def deepTree : ScapegoatTree (BitVec 32) := ScapegoatTree.counted (spine (addresses 715827885) deepSizes 0)

/-- Its addresses, level by level. -/
def deepLevels : List (BitVec 32) := levels 52 (spine (addresses 715827885) deepSizes 0)

/-- The addresses of the tree, and the next one. -/
def deepRun : List (BitVec 32) :=
  levels 52 (spine (addresses 715827885) deepSizes 0) ++ [BitVec.ofNat 32 715827885]

theorem length_addresses (n : Nat) : (addresses n).length = n := by
  unfold addresses
  rw [List.length_map, List.length_range]

theorem lt_of_mem_addresses {n : Nat} (hn : n < 2 ^ 32) {y : BitVec 32} (hy : y ∈ addresses n) :
    y < BitVec.ofNat 32 n := by
  obtain ⟨i, hi, rfl⟩ := List.mem_map.1 hy
  rw [List.mem_range] at hi
  rw [BitVec.lt_def, BitVec.toNat_ofNat, BitVec.toNat_ofNat, Nat.mod_eq_of_lt (by omega), Nat.mod_eq_of_lt hn]
  exact hi

theorem addresses_pairwise {n : Nat} (hn : n ≤ 2 ^ 32) : (addresses n).Pairwise (· < ·) := by
  unfold addresses
  rw [List.pairwise_map]
  refine List.pairwise_lt_range.imp_of_mem fun {i j} hi hj hij => ?_
  rw [List.mem_range] at hi hj
  rw [BitVec.lt_def, BitVec.toNat_ofNat, BitVec.toNat_ofNat, Nat.mod_eq_of_lt (by omega), Nat.mod_eq_of_lt (by omega)]
  exact hij

theorem size_deepSizes : spineSize deepSizes = 715827885 := by decide

theorem spineSize_deepSizes : spineSize deepSizes = (addresses 715827885).length := by
  rw [size_deepSizes, length_addresses]

theorem spineTop_deepSizes : spineTop 52 deepSizes = spineSize deepSizes := by decide

theorem length_deepLevels : deepLevels.length = 715827885 := by
  unfold deepLevels
  rw [length_levels, size_top_spine 52 (by rw [spineSize_deepSizes, Nat.zero_add]), spineTop_deepSizes, size_deepSizes]

theorem length_deepRun : deepRun.length = 715827886 := by
  rw [show deepRun = deepLevels ++ [BitVec.ofNat 32 715827885] from rfl, List.length_append, length_deepLevels]
  rfl

/-- The tree is reachable. -/
theorem deepTree_built : Built deepLevels deepTree :=
  ScapegoatTree.built_spine (addresses_pairwise (by decide)) spineSize_deepSizes (by rw [length_addresses]; decide)
    (by decide) spineTop_deepSizes

theorem notMem_deepTree : BitVec.ofNat 32 715827885 ∉ deepTree.r.keys := by
  intro hmem
  rw [show deepTree = ScapegoatTree.counted (spine (addresses 715827885) deepSizes 0) from rfl,
    ScapegoatTree.keys_counted_spine spineSize_deepSizes] at hmem
  exact absurd (lt_of_mem_addresses (by decide) hmem) (lt_irrefl _)

/-- The search for the place of the next address does not fit: it would have to stop at a subtree
whose size, taken three times, overflows. -/
theorem deepTree_not_searchFits : ¬ deepTree.SearchFits (BitVec.ofNat 32 715827885) := by
  refine ScapegoatTree.not_searchFits_spine (fun y => lt_of_mem_addresses (by decide)) spineSize_deepSizes ?_
    (by decide)
  rw [log32_lt_iff (by omega), size_deepSizes]
  exact ⟨51, by decide, by decide⟩

theorem deepRun_not_built : ¬ ∃ t, Built deepRun t := by
  rw [ScapegoatTree.exists_built_iff (by rw [length_deepRun]; decide)]
  exact fun hfits => deepTree_not_searchFits (hfits _ _ (List.prefix_refl _) _ deepTree_built)

/-- A run of fewer than `2 ^ 31` calls that does not keep the height. -/
theorem deepRun_fails : deepRun.length < 2 ^ 31 ∧ ¬ HeightKept deepRun := by
  refine ⟨by rw [length_deepRun]; decide, fun hkept => deepRun_not_built ?_⟩
  exact (hkept _ (List.prefix_refl _)).imp fun t ht => ht.1

end OPETree

end Embark
