/-
The ciphertext gaps of a built tree. The two walks of `ope_tree.h` compute the bounds of the scale
whose boundaries are the stored keys at their dyadic codes, and `generate_ciphertext` draws a code
out of the gap of its argument: so ciphertexts compare with the ciphertexts of stored endpoints as
the plaintexts do, and the gaps partition the code space in key order.
-/
import Embark.Lib.Scale
import Embark.Ope.Tree
import Embark.Tree.Invariant
import Mathlib.Data.Finset.Dedup

namespace Embark

open BinTree

namespace OPETree

variable {α : Type} [LinearOrder α]

open ScapegoatTree (Built)

/-! ## The scale of a tree -/

/-- The stored keys at the codes of their positions, below the all-ones word. -/
def scale (t : ScapegoatTree α) (h : t.WF) : Scale α where
  top := 2 ^ 128 - 1
  keys := t.r.keys.toFinset
  code := codeAt 128 0 t.r
  top_pos := by decide
  mono x hx y hy := codeAt_lt h.ordered (by have := ScapegoatTree.height_wf h; omega) x (List.mem_toFinset.1 hx) y
    (List.mem_toFinset.1 hy)
  code_pos x hx := (codeAt_mem 128 0 h.ordered (by have := ScapegoatTree.height_wf h; omega) x
    (List.mem_toFinset.1 hx)).1
  code_lt x hx := by
    have hh := ScapegoatTree.height_wf h
    have hlt := (codeAt_mem 128 0 h.ordered (by omega) x (List.mem_toFinset.1 hx)).2
    have hdvd : 2 ^ 74 ∣ codeAt 128 0 t.r x := dvd_codeAt (by omega) (by simp) x
    rw [Nat.zero_add] at hlt
    omega

section Scale

variable {t : ScapegoatTree α} (h : t.WF)

@[simp] theorem mem_scale_keys {x : α} : x ∈ (scale t h).keys ↔ x ∈ t.r.keys := List.mem_toFinset

theorem scale_top : (scale t h).top = 2 ^ 128 - 1 := rfl

include h in
theorem at_root : At t.r 0 0 :=
  ⟨by decide, by have := ScapegoatTree.height_wf h; omega, h.ordered⟩

theorem codeBelow_root_eq (x : α) : codeBelow t.r 0 0 x = (scale t h).code x := by
  unfold codeBelow
  rw [show (0 : U128).toNat * 2 ^ (128 - 0) = 0 from rfl]
  rfl

/-- `max_ciphertext_less_equal_than` is the lower bound of the gap. -/
theorem toNat_max (v : α) : (maxCiphertextLessEqualThan t v).toNat = (scale t h).lo v := by
  unfold maxCiphertextLessEqualThan
  rcases maxWalk_spec v none (at_root h) with ⟨he, hgt⟩ | ⟨x, hx, hxv, hmax, q, j, he, hc⟩
  · rw [he, Scale.lo_eq_zero fun x hx => hgt x ((mem_scale_keys h).1 hx)]
    rfl
  · rw [he, Scale.lo_eq_code ((mem_scale_keys h).2 hx) hxv fun y hy => hmax y ((mem_scale_keys h).1 hy)]
    simp only
    rw [hc, codeBelow_root_eq h]

/-- `min_ciphertext_greater_than` is the upper bound of the gap. -/
theorem toNat_min (v : α) : (minCiphertextGreaterThan t v).toNat = (scale t h).hi v := by
  unfold minCiphertextGreaterThan
  rcases minWalk_spec v none (at_root h) with ⟨he, hle⟩ | ⟨x, hx, hvx, hmin, q, j, he, hc⟩
  · rw [he, Scale.hi_eq_top fun x hx => hle x ((mem_scale_keys h).1 hx)]
    rfl
  · rw [he, Scale.hi_eq_code ((mem_scale_keys h).2 hx) hvx fun y hy => hmin y ((mem_scale_keys h).1 hy)]
    simp only
    rw [hc, codeBelow_root_eq h]

theorem toNat_range_fst (v : α) : (ciphertextRange t v).1.toNat = (scale t h).lo v := toNat_max h v
theorem toNat_range_snd (v : α) : (ciphertextRange t v).2.toNat = (scale t h).hi v := toNat_min h v

/-- The ciphertext of a stored endpoint is the code of its position. -/
theorem toNat_endpoint {x : α} (hx : x ∈ t.r.keys) :
    (endpointCiphertext t x).toNat = (scale t h).code x := by
  unfold endpointCiphertext
  rw [toNat_range_fst h, Scale.lo_of_mem ((mem_scale_keys h).2 hx)]

theorem dvd_lo (v : α) : 2 ^ 74 ∣ (scale t h).lo v := by
  have hh := ScapegoatTree.height_wf h
  rcases Scale.lo_cases (s := scale t h) v with h0 | ⟨x, -, -, he⟩
  · rw [h0]; exact Nat.dvd_zero _
  · rw [he]; exact dvd_codeAt (by omega) (by simp) x

/-- Every gap is at least `2 ^ 74 - 1` codes wide. -/
theorem gap_width (v : α) : 2 ^ 74 - 1 ≤ (scale t h).hi v - (scale t h).lo v := by
  have hh := ScapegoatTree.height_wf h
  have hlt := Scale.lo_lt_hi (s := scale t h) v
  have hd := dvd_lo h v
  rcases Scale.hi_cases (s := scale t h) v with h1 | ⟨y, -, -, he⟩
  · rw [scale_top] at h1; omega
  · have hd' : 2 ^ 74 ∣ (scale t h).code y := dvd_codeAt (by omega) (by simp) y
    omega

end Scale

/-! ## Drawing a ciphertext -/

theorem toNat_randomBound (engine : Engine) {low high : U128} (hlt : low.toNat < high.toNat) :
    (randomBound engine low high).1.toNat =
      (random128 engine).1.toNat % (high.toNat - low.toNat) + low.toNat := by
  have hsub : (high - low).toNat = high.toNat - low.toNat := BitVec.toNat_sub_of_le (by
    rw [BitVec.le_def]; omega)
  have hmod : (random128 engine).1.toNat % (high.toNat - low.toNat) < high.toNat - low.toNat :=
    Nat.mod_lt _ (by omega)
  have hhigh := high.isLt
  simp only [randomBound]
  rw [BitVec.toNat_add, BitVec.toNat_umod, hsub, Nat.mod_eq_of_lt (by omega)]

/-- `generate_ciphertext`, as a number. -/
theorem toNat_generate (t : OPETree α) (h : t.toScapegoatTree.WF) (v : α) :
    (t.generateCiphertext v).1.toNat = (random128 t.prng).1.toNat %
      ((scale t.toScapegoatTree h).hi v - (scale t.toScapegoatTree h).lo v) + (scale t.toScapegoatTree h).lo v := by
  have hlt := Scale.lo_lt_hi (s := scale t.toScapegoatTree h) v
  rw [← toNat_max h, ← toNat_min h] at hlt ⊢
  exact toNat_randomBound t.prng hlt

/-- Every ciphertext of `v` lies in the gap of `v`, whatever the engine draws. -/
theorem generate_inGap (t : OPETree α) (h : t.toScapegoatTree.WF) (v : α) :
    (scale t.toScapegoatTree h).InGap v (t.generateCiphertext v).1.toNat := by
  have hlt := Scale.lo_lt_hi (s := scale t.toScapegoatTree h) v
  have hmod : (random128 t.prng).1.toNat % ((scale t.toScapegoatTree h).hi v - (scale t.toScapegoatTree h).lo v) <
      (scale t.toScapegoatTree h).hi v - (scale t.toScapegoatTree h).lo v := Nat.mod_lt _ (by omega)
  rw [toNat_generate t h]
  unfold Scale.InGap
  omega

/-- A ciphertext is at least that of a stored endpoint exactly when its plaintext is. -/
theorem endpoint_le_generate (t : OPETree α) (h : t.toScapegoatTree.WF) {x : α}
    (hx : x ∈ t.r.keys) (v : α) :
    endpointCiphertext t.toScapegoatTree x ≤ (t.generateCiphertext v).1 ↔ x ≤ v := by
  rw [BitVec.le_def, toNat_endpoint h hx]
  exact Scale.code_le_iff (generate_inGap t h v) ((mem_scale_keys h).2 hx)

/-- Ciphertexts of values with a stored endpoint between them are in order. -/
theorem generate_lt (t t' : OPETree α) (ht : t'.toScapegoatTree = t.toScapegoatTree)
    (h : t.toScapegoatTree.WF) {x u v : α} (hx : x ∈ t.r.keys) (hu : u < x) (hv : x ≤ v) :
    (t.generateCiphertext u).1 < (t'.generateCiphertext v).1 := by
  obtain ⟨s', prng'⟩ := t'
  obtain rfl : s' = t.toScapegoatTree := ht
  rw [BitVec.lt_def]
  have h1 := generate_inGap t h u
  have h2 := generate_inGap ⟨t.toScapegoatTree, prng'⟩ h v
  have h3 := Scale.hi_le_lo ((mem_scale_keys h).2 hx) hu hv
  exact lt_of_lt_of_le h1.2 (le_trans h3 h2.1)

/-! ## The gaps of a built tree -/

section Gaps

variable {xs : List α} {t : ScapegoatTree α}

theorem range_eq_of_sameGap (h : t.WF) {u v : α} (huv : u ≤ v) (hs : ∀ x ∈ t.r.keys, ¬ (u < x ∧ x ≤ v)) :
    ciphertextRange t u = ciphertextRange t v := by
  have hg := Scale.gap_eq (s := scale t h) huv fun x hx => hs x ((mem_scale_keys h).1 hx)
  refine Prod.ext (BitVec.eq_of_toNat_eq ?_) (BitVec.eq_of_toNat_eq ?_)
  · rw [toNat_range_fst h, toNat_range_fst h, hg.1]
  · rw [toNat_range_snd h, toNat_range_snd h, hg.2]

/-- The codes covered by the gaps of the values of the key type: all below the top, from the code
of the least stored key on where no value lies below it. -/
theorem covered_iff (h : t.WF) (c : U128) :
    (∃ v, (ciphertextRange t v).1 ≤ c ∧ c < (ciphertextRange t v).2) ↔
      c < BitVec.allOnes 128 ∧
        ((∃ x ∈ t.r.keys, endpointCiphertext t x ≤ c) ∨ ∃ v, ∀ x ∈ t.r.keys, v < x) := by
  -- the statement about words is the statement about their numbers
  have hcov := Scale.inGap_iff (s := scale t h) c.toNat
  have hl : (∃ v, (ciphertextRange t v).1 ≤ c ∧ c < (ciphertextRange t v).2) ↔
      ∃ v, (scale t h).InGap v c.toNat := by
    refine exists_congr fun v => ?_
    rw [BitVec.le_def, BitVec.lt_def, toNat_range_fst h, toNat_range_snd h]
    rfl
  rw [hl, hcov, BitVec.lt_def, BitVec.toNat_allOnes, scale_top]
  refine and_congr_right fun _ => or_congr ?_ ?_
  · constructor
    · rintro ⟨x, hx, hc⟩
      rw [mem_scale_keys] at hx
      exact ⟨x, hx, by rw [BitVec.le_def, toNat_endpoint h hx]; exact hc⟩
    · rintro ⟨x, hx, hc⟩
      rw [BitVec.le_def, toNat_endpoint h hx] at hc
      exact ⟨x, (mem_scale_keys h).2 hx, hc⟩
  · simp only [mem_scale_keys]

/-- The gaps of a built tree, in key order: values no stored key separates share their gap, a
stored key between two values separates their gaps, neighbouring gaps share their bound, the gaps
cover the code space (`covered_iff`), every ciphertext compares with the ciphertext of a stored
key as its plaintext does, and from one engine state a gap has one ciphertext. -/
theorem gaps_partition (ht : Built xs t) :
    (∀ v₁ v₂, v₁ ≤ v₂ → (∀ x ∈ t.r.keys, ¬ (v₁ < x ∧ x ≤ v₂)) →
      ciphertextRange t v₁ = ciphertextRange t v₂) ∧
    (∀ v₁ v₂, v₁ ≤ v₂ → (∃ x ∈ t.r.keys, v₁ < x ∧ x ≤ v₂) →
      (ciphertextRange t v₁).2 ≤ (ciphertextRange t v₂).1) ∧
    (∀ v, ∀ x ∈ t.r.keys, v < x → (∀ y ∈ t.r.keys, v < y → x ≤ y) →
      (ciphertextRange t v).2 = (ciphertextRange t x).1) ∧
    (∀ c : U128, (∃ v, (ciphertextRange t v).1 ≤ c ∧ c < (ciphertextRange t v).2) ↔
      c < BitVec.allOnes 128 ∧
        ((∃ x ∈ t.r.keys, endpointCiphertext t x ≤ c) ∨ ∃ v, ∀ x ∈ t.r.keys, v < x)) ∧
    (∀ x ∈ t.r.keys, ∀ v prng,
      endpointCiphertext t x ≤ ((⟨t, prng⟩ : OPETree α).generateCiphertext v).1 ↔ x ≤ v) ∧
    (∀ v₁ v₂ prng, ciphertextRange t v₁ = ciphertextRange t v₂ →
      ((⟨t, prng⟩ : OPETree α).generateCiphertext v₁).1 =
        ((⟨t, prng⟩ : OPETree α).generateCiphertext v₂).1) := by
  have h := ScapegoatTree.built_wf ht
  refine ⟨fun _ _ => range_eq_of_sameGap h, fun v₁ v₂ _ => ?_, fun v x hx hvx hmin => ?_, covered_iff h,
    fun x hx v prng => endpoint_le_generate ⟨t, prng⟩ h hx v, fun v₁ v₂ prng he => ?_⟩
  · rintro ⟨x, hx, h1, h2⟩
    rw [BitVec.le_def, toNat_range_snd h, toNat_range_fst h]
    exact Scale.hi_le_lo ((mem_scale_keys h).2 hx) h1 h2
  · apply BitVec.eq_of_toNat_eq
    rw [toNat_range_snd h, toNat_range_fst h]
    exact Scale.hi_eq_lo ((mem_scale_keys h).2 hx) hvx fun y hy => hmin y ((mem_scale_keys h).1 hy)
  · obtain ⟨h1, h2⟩ := Prod.mk.inj he
    simp only [generateCiphertext, h1, h2]

end Gaps

/-- The port tree after loading the range `0 : 65535`. -/
def fullPortRange : ScapegoatTree (BitVec 16) := ⟨node nil 0 (node nil 65535 nil), 2, 2⟩

theorem fullPortRange_built : Built [0, 65535] fullPortRange := by decide

theorem gaps_partition_fullPortRange : Built [0, 65535] fullPortRange ∧
    (ciphertextRange fullPortRange 80).2 = (ciphertextRange fullPortRange 65535).1 :=
  ⟨fullPortRange_built, (gaps_partition fullPortRange_built).2.2.1 80 65535 (by decide) (by decide)
    (by simp [fullPortRange])⟩

/-- With the least port stored no port has a gap below its code: the number 0 is in no gap. -/
theorem fullPortRange_uncovered : Built [0, 65535] fullPortRange ∧
    ¬ ∀ c : U128, c < BitVec.allOnes 128 →
      ∃ v, (ciphertextRange fullPortRange v).1 ≤ c ∧ c < (ciphertextRange fullPortRange v).2 := by
  refine ⟨fullPortRange_built, fun hall => ?_⟩
  have h := ScapegoatTree.built_wf fullPortRange_built
  obtain ⟨-, ⟨x, hx, hc⟩ | ⟨v, hv⟩⟩ := (covered_iff h 0).1 (hall 0 (by decide))
  · rw [BitVec.le_def, toNat_endpoint h hx] at hc
    have := (scale fullPortRange h).code_pos x ((mem_scale_keys h).2 hx)
    simp only [BitVec.ofNat_eq_ofNat, BitVec.toNat_ofNat, Nat.zero_mod, Nat.le_zero_eq] at hc
    omega
  · have : v < 0 := hv 0 (by decide)
    exact absurd this (by rw [BitVec.lt_def]; simp)

end OPETree

end Embark
