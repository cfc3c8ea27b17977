/-
Trees of integer intervals that are split in two: each node has a domain and a range at least as
large, the range is halved and a gap function says how much of the domain goes to the lower half.
No two nodes split at one point, every domain value has a leaf, and the leaves of larger values
have larger ranges.
-/
import Mathlib.Data.Int.Interval

namespace Embark

namespace SplitTree

/-- The domain `[dLo, dHi]` and the range `[rLo, rHi]` of a node. -/
@[ext] structure Node where
  dLo : ℤ
  dHi : ℤ
  rLo : ℤ
  rHi : ℤ
deriving DecidableEq, Repr

namespace Node

def ndomain (n : Node) : ℤ := n.dHi - n.dLo + 1

def nrange (n : Node) : ℤ := n.rHi - n.rLo + 1

/-- The least number of the upper half of the range. -/
def split (n : Node) : ℤ := n.rLo + n.nrange / 2

/-- The range is at least as large as the domain. -/
structure Valid (n : Node) : Prop where
  nonneg : 0 ≤ n.ndomain
  le : n.ndomain ≤ n.nrange

/-- A node that is split. -/
structure Inner (n : Node) : Prop where
  ndomain_ne : n.ndomain ≠ 1
  two_le : 2 ≤ n.nrange

theorem Inner.lt_split {n : Node} (h : n.Inner) : n.rLo < n.split := by
  have := h.two_le
  unfold split
  omega

theorem Inner.split_le {n : Node} (h : n.Inner) : n.split ≤ n.rHi := by
  have hr := h.two_le
  unfold nrange at hr
  unfold split nrange
  omega

end Node

/-- A gap leaves enough of the domain for the upper half and no more than fits the lower one. -/
def GapBounds (gap : Node → ℤ) : Prop :=
  ∀ n : Node, n.Valid → 2 ≤ n.nrange →
    max 0 (n.nrange / 2 - (n.nrange - n.ndomain)) ≤ gap n ∧ gap n ≤ min (n.nrange / 2) n.ndomain

section Tree

variable (gap : Node → ℤ)

def low (n : Node) : Node := ⟨n.dLo, n.dLo + gap n - 1, n.rLo, n.split - 1⟩

def high (n : Node) : Node := ⟨n.dLo + gap n, n.dHi, n.split, n.rHi⟩

/-- The nodes under a node. -/
inductive Below : Node → Node → Prop
  | refl (n : Node) : Below n n
  | inLow {n m : Node} : n.Inner → Below (low gap n) m → Below n m
  | inHigh {n m : Node} : n.Inner → Below (high gap n) m → Below n m

end Tree

variable {gap : Node → ℤ} {n m m' : Node}

theorem Below.trans (h : Below gap n m) : ∀ {m' : Node}, Below gap m m' → Below gap n m' := by
  induction h with
  | refl => exact id
  | inLow hn _ ih => exact fun h' => .inLow hn (ih h')
  | inHigh hn _ ih => exact fun h' => .inHigh hn (ih h')

/-! ## Halves -/

theorem nrange_low (n : Node) : (low gap n).nrange = n.nrange / 2 := by
  unfold low Node.split
  simp only [Node.nrange]
  omega

theorem nrange_high (n : Node) : (high gap n).nrange = n.nrange - n.nrange / 2 := by
  unfold high Node.split
  simp only [Node.nrange]
  omega

theorem ndomain_low (n : Node) : (low gap n).ndomain = gap n := by
  unfold low
  simp only [Node.ndomain]
  omega

theorem ndomain_high (n : Node) : (high gap n).ndomain = n.ndomain - gap n := by
  unfold high
  simp only [Node.ndomain]
  omega

theorem valid_low (hgap : GapBounds gap) (hv : n.Valid) (hn : n.Inner) : (low gap n).Valid := by
  obtain ⟨h1, h2⟩ := hgap n hv hn.two_le
  constructor
  · rw [ndomain_low]
    omega
  · rw [ndomain_low, nrange_low]
    omega

theorem valid_high (hgap : GapBounds gap) (hv : n.Valid) (hn : n.Inner) : (high gap n).Valid := by
  obtain ⟨h1, h2⟩ := hgap n hv hn.two_le
  constructor
  · rw [ndomain_high]
    omega
  · rw [ndomain_high, nrange_high]
    omega

/-! ## Containment -/

theorem Below.range (h : Below gap n m) : n.rLo ≤ m.rLo ∧ m.rHi ≤ n.rHi := by
  induction h with
  | refl => exact ⟨le_rfl, le_rfl⟩
  | inLow hn _ ih => exact ⟨ih.1, ih.2.trans (by have := hn.split_le; simp only [low]; omega)⟩
  | inHigh hn _ ih => exact ⟨hn.lt_split.le.trans ih.1, ih.2⟩

theorem Below.domain (hgap : GapBounds gap) (h : Below gap n m) :
    n.Valid → m.Valid ∧ n.dLo ≤ m.dLo ∧ m.dHi ≤ n.dHi := by
  induction h with
  | refl n => exact fun hv => ⟨hv, le_rfl, le_rfl⟩
  | @inLow n m hn _ ih =>
    intro hv
    obtain ⟨h1, h2⟩ := hgap n hv hn.two_le
    obtain ⟨hm, hlo, hhi⟩ := ih (valid_low hgap hv hn)
    refine ⟨hm, hlo, hhi.trans ?_⟩
    simp only [low, Node.ndomain] at h2 ⊢
    omega
  | @inHigh n m hn _ ih =>
    intro hv
    obtain ⟨h1, h2⟩ := hgap n hv hn.two_le
    obtain ⟨hm, hlo, hhi⟩ := ih (valid_high hgap hv hn)
    refine ⟨hm, le_trans ?_ hlo, hhi⟩
    simp only [high] at h1 ⊢
    omega

/-- Where a node under `n` is, from the point at which `n` is split. -/
theorem Below.rHi_lt_of_low (h : Below gap (low gap n) m) : m.rHi < n.split := by
  have := h.range.2
  simp only [low] at this
  omega

theorem Below.le_rLo_of_high (h : Below gap (high gap n) m) : n.split ≤ m.rLo := h.range.1

/-- No two inner nodes split at one point. -/
theorem Below.split_inj (h : Below gap n m) (hm : m.Inner) :
    ∀ {m' : Node}, Below gap n m' → m'.Inner → m.split = m'.split → m = m' := by
  induction h with
  | refl n =>
    intro m' h' hm' heq
    cases h' with
    | refl => rfl
    | inLow _ h' =>
      have := h'.rHi_lt_of_low
      have := hm'.split_le
      omega
    | inHigh _ h' =>
      have := h'.le_rLo_of_high
      have := hm'.lt_split
      omega
  | @inLow n m hn h ih =>
    intro m' h' hm' heq
    -- `m` splits below the point at which `n` does, and so must the other one
    have hlt := h.rHi_lt_of_low
    have hle := hm.split_le
    cases h' with
    | refl => omega
    | inLow _ h' => exact ih hm h' hm' heq
    | inHigh _ h' =>
      have := h'.le_rLo_of_high
      have := hm'.lt_split
      omega
  | @inHigh n m hn h ih =>
    intro m' h' hm' heq
    have hle := h.le_rLo_of_high
    have hlt := hm.lt_split
    cases h' with
    | refl => omega
    | inLow _ h' =>
      have := h'.rHi_lt_of_low
      have := hm'.split_le
      omega
    | inHigh _ h' => exact ih hm h' hm' heq

/-! ## Leaves -/

/-- The leaf of a domain value. -/
structure IsLeaf (m : Node) (d : ℤ) : Prop where
  dLo : m.dLo = d
  single : m.ndomain = 1

theorem IsLeaf.dHi {d : ℤ} (h : IsLeaf m d) : m.dHi = d := by
  have h1 := h.dLo
  have h2 := h.single
  unfold Node.ndomain at h2
  omega

/-- A leaf is not split, so what is under it is itself. -/
theorem Below.eq_of_leaf (h : Below gap n m) (hn : n.ndomain = 1) : m = n := by
  cases h with
  | refl => rfl
  | inLow hi _ => exact absurd hn hi.ndomain_ne
  | inHigh hi _ => exact absurd hn hi.ndomain_ne

/-- Every value of the domain has a leaf. -/
theorem exists_leaf (hgap : GapBounds gap) {d : ℤ} : ∀ (k : ℕ) {n : Node}, n.nrange.toNat ≤ k → n.Valid →
    n.dLo ≤ d → d ≤ n.dHi → ∃ m, Below gap n m ∧ IsLeaf m d
  | 0, n, hk, hv, hlo, hhi => by
    have := hv.le
    simp only [Node.ndomain] at this
    omega
  | k + 1, n, hk, hv, hlo, hhi => by
    by_cases hone : n.ndomain = 1
    · refine ⟨n, .refl n, ?_, hone⟩
      unfold Node.ndomain at hone
      omega
    · have hnd : n.ndomain = n.dHi - n.dLo + 1 := rfl
      have hle := hv.le
      have hn : n.Inner := ⟨hone, by omega⟩
      have hr := hn.two_le
      -- both halves are smaller than the range
      by_cases hside : d < n.dLo + gap n
      · obtain ⟨m, hm, hleaf⟩ := exists_leaf hgap (d := d) k (n := low gap n)
          (by rw [nrange_low]; omega) (valid_low hgap hv hn) hlo (by simp only [low]; omega)
        exact ⟨m, .inLow hn hm, hleaf⟩
      · obtain ⟨m, hm, hleaf⟩ := exists_leaf hgap (d := d) k (n := high gap n)
          (by rw [nrange_high]; omega) (valid_high hgap hv hn) (by simp only [high]; omega) hhi
        exact ⟨m, .inHigh hn hm, hleaf⟩

/-- The leaf of a larger value has a larger range. -/
theorem Below.leaf_lt (hgap : GapBounds gap) {p q : ℤ} (hpq : p < q) (h : Below gap n m) (hm : IsLeaf m p) :
    n.Valid → ∀ {m' : Node}, Below gap n m' → IsLeaf m' q → m.rHi < m'.rLo := by
  induction h with
  | refl n =>
    intro _ m' h' hm'
    obtain rfl := h'.eq_of_leaf hm.single
    have := hm.dLo
    have := hm'.dLo
    omega
  | @inLow n m hn h ih =>
    intro hv m' h' hm'
    cases h' with
    | refl => exact absurd hm'.single hn.ndomain_ne
    | inLow _ h' => exact ih hm (valid_low hgap hv hn) h' hm'
    | inHigh _ h' => exact h.rHi_lt_of_low.trans_le h'.le_rLo_of_high
  | @inHigh n m hn h ih =>
    intro hv m' h' hm'
    cases h' with
    | refl => exact absurd hm'.single hn.ndomain_ne
    | inLow _ h' =>
      -- then `q` would be in the lower domain and `p` in the upper one
      have hp := (h.domain hgap (valid_high hgap hv hn)).2.1
      have hq := (h'.domain hgap (valid_low hgap hv hn)).2.2
      rw [hm.dLo] at hp
      rw [hm'.dHi] at hq
      simp only [low, high] at hp hq
      omega
    | inHigh _ h' => exact ih hm (valid_high hgap hv hn) h' hm'

end SplitTree

end Embark
