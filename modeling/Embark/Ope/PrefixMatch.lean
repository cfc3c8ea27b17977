/-
PrefixMatch: the rule encryptor prints a range of endpoints `[s, e]` as the pair of the
ciphertexts of `s` and `e`, and the middlebox compares the ciphertext of a value with both. The
range of `e` starts at its ciphertext and reaches up to the next stored endpoint, so the upper
comparison is decided by the draw of the engine for every value in the gap that starts at `e`.
-/
import Embark.Ope.Gaps

namespace Embark

open BinTree

namespace OPETree

variable {α : Type} [LinearOrder α]

open ScapegoatTree (Built)

/-- The middlebox's test of a ciphertext against the encrypted range of `[s, e]`. -/
def Matches (t : ScapegoatTree α) (s e : α) (c : U128) : Prop :=
  endpointCiphertext t s ≤ c ∧ c ≤ endpointCiphertext t e

instance (t : ScapegoatTree α) (s e : α) (c : U128) : Decidable (Matches t s e c) :=
  inferInstanceAs (Decidable (_ ∧ _))

/-- `v` lies below `e`, or at or above a stored key greater than `e`. -/
def OutsideGapOf (t : ScapegoatTree α) (e v : α) : Prop := v < e ∨ ∃ x ∈ t.r.keys, e < x ∧ x ≤ v

section Match

variable {t : ScapegoatTree α} {s e : α}

/-- Outside the gap that starts at `e` every ciphertext matches exactly when its plaintext is in
the range. -/
theorem matches_of_outside (h : t.WF) (hs : s ∈ t.r.keys) (he : e ∈ t.r.keys) {v : α}
    (ho : OutsideGapOf t e v) (prng : Engine) :
    (s ≤ v ∧ v ≤ e) ↔ Matches t s e ((⟨t, prng⟩ : OPETree α).generateCiphertext v).1 := by
  unfold Matches
  rw [BitVec.le_def, BitVec.le_def, toNat_endpoint h hs, toNat_endpoint h he]
  refine Scale.mem_range_iff ((mem_scale_keys h).2 hs) ((mem_scale_keys h).2 he)
    (generate_inGap ⟨t, prng⟩ h v) (ho.imp id ?_)
  rintro ⟨x, hx, h1, h2⟩ hg
  exact hg x ((mem_scale_keys h).2 hx) ⟨h1, h2⟩

/-- In the gap that starts at `e` a ciphertext is at most that of `e` only when the draw leaves no
remainder modulo the width of the gap. -/
theorem generate_le_endpoint_iff (h : t.WF) (he : e ∈ t.r.keys) {v : α} (hev : e ≤ v)
    (hg : ∀ x ∈ t.r.keys, ¬ (e < x ∧ x ≤ v)) (prng : Engine) :
    ((⟨t, prng⟩ : OPETree α).generateCiphertext v).1 ≤ endpointCiphertext t e ↔
      (random128 prng).1.toNat % ((ciphertextRange t e).2.toNat - (ciphertextRange t e).1.toNat) = 0 := by
  have hgap := Scale.gap_eq (s := scale t h) hev fun x hx => hg x ((mem_scale_keys h).1 hx)
  have hlo := Scale.lo_of_mem ((mem_scale_keys h).2 he)
  have hgen : ((⟨t, prng⟩ : OPETree α).generateCiphertext v).1.toNat =
      (random128 prng).1.toNat % ((scale t h).hi e - (scale t h).lo e) + (scale t h).lo e := by
    rw [hgap.1, hgap.2]
    exact toNat_generate ⟨t, prng⟩ h v
  rw [BitVec.le_def, toNat_endpoint h he, hgen, toNat_range_fst h, toNat_range_snd h, ← hlo]
  omega

/-- One draw: the test is right exactly outside the gap that starts at `e`, and inside it when `v`
is `e` and the remainder of the draw is 0, or neither. -/
theorem matches_iff (h : t.WF) (hs : s ∈ t.r.keys) (he : e ∈ t.r.keys) (hse : s ≤ e) (v : α)
    (prng : Engine) :
    ((s ≤ v ∧ v ≤ e) ↔ Matches t s e ((⟨t, prng⟩ : OPETree α).generateCiphertext v).1) ↔
      (OutsideGapOf t e v ∨ (v = e ↔
        (random128 prng).1.toNat % ((ciphertextRange t e).2.toNat - (ciphertextRange t e).1.toNat) = 0)) := by
  by_cases ho : OutsideGapOf t e v
  · exact iff_of_true (matches_of_outside h hs he ho prng) (.inl ho)
  · unfold OutsideGapOf at ho
    push Not at ho
    obtain ⟨hev, hg⟩ := ho
    have hout : ¬ OutsideGapOf t e v := by
      rintro (h1 | ⟨x, hx, h1, h2⟩)
      · exact absurd h1 (not_lt.2 hev)
      · exact absurd h2 (not_le.2 (hg x hx h1))
    rw [or_iff_right hout, ← generate_le_endpoint_iff h he hev
      (fun x hx hc => absurd hc.2 (not_le.2 (hg x hx hc.1)))]
    have hsv : s ≤ v := le_trans hse hev
    -- the lower end always agrees; only the comparison with `C(e)` is left
    have hlow := (endpoint_le_generate ⟨t, prng⟩ h hs v).2 hsv
    have heq : v ≤ e ↔ v = e := ⟨fun h' => le_antisymm h' hev, fun h' => h' ▸ le_rfl⟩
    unfold Matches
    rw [and_iff_right hsv, and_iff_right hlow, heq]

/-- Inside the gap that starts at `e` some draw makes the test wrong: the gap is wider than one. -/
theorem exists_mismatch (h : t.WF) (e v : α) : ∃ prng : Engine, ¬ (v = e ↔
    (random128 prng).1.toNat % ((ciphertextRange t e).2.toNat - (ciphertextRange t e).1.toNat) = 0) := by
  have hw := gap_width h e
  rw [← toNat_range_fst h, ← toNat_range_snd h] at hw
  by_cases hv : v = e
  · refine ⟨fun n => if n = 0 then 1 else 0, ?_⟩
    have h1 : (random128 fun n => if n = 0 then 1 else 0).1.toNat = 1 := by decide
    rw [h1, Nat.mod_eq_of_lt (by omega)]
    simp [hv]
  · refine ⟨fun _ => 0, ?_⟩
    have h0 : (random128 fun _ => 0).1.toNat = 0 := by decide
    rw [h0]
    simp [hv]

end Match

/-- Prefix matching on a built tree that holds both ends of `[s, e]`. Over all draws the test is
right exactly for the values outside the gap that starts at `e`, that is below `e` or from the next
stored endpoint on; for one draw, also where `v` is `e` and the draw leaves no remainder modulo the
width of that gap, and where it is another value of the gap and the draw leaves one. -/
theorem prefixMatch_iff {xs : List α} {t : ScapegoatTree α} (ht : Built xs t) {s e : α} (hs : s ∈ xs)
    (he : e ∈ xs) (hse : s ≤ e) (v : α) :
    ((∀ prng, (s ≤ v ∧ v ≤ e) ↔ Matches t s e ((⟨t, prng⟩ : OPETree α).generateCiphertext v).1) ↔
      (v < e ∨ ∃ x ∈ xs, e < x ∧ x ≤ v)) ∧
    ∀ prng, ((s ≤ v ∧ v ≤ e) ↔ Matches t s e ((⟨t, prng⟩ : OPETree α).generateCiphertext v).1) ↔
      ((v < e ∨ ∃ x ∈ xs, e < x ∧ x ≤ v) ∨ (v = e ↔
        (random128 prng).1.toNat % ((ciphertextRange t e).2.toNat - (ciphertextRange t e).1.toNat) = 0)) := by
  have h := ScapegoatTree.built_wf ht
  have hk := ScapegoatTree.mem_built ht
  have ho : (v < e ∨ ∃ x ∈ xs, e < x ∧ x ≤ v) ↔ OutsideGapOf t e v := by
    unfold OutsideGapOf; simp only [hk]
  rw [ho]
  have hone := matches_iff h ((hk s).2 hs) ((hk e).2 he) hse v
  refine ⟨⟨fun hall => ?_, fun hout prng => (hone prng).2 (.inl hout)⟩, hone⟩
  obtain ⟨prng, hp⟩ := exists_mismatch h e v
  exact ((hone prng).1 (hall prng)).resolve_right hp

/-- The tree of the range `[10, 20]`. -/
def tenTwenty : ScapegoatTree (BitVec 32) := ⟨node nil 10 (node nil 20 nil), 2, 2⟩

theorem tenTwenty_built : Built [10, 20] tenTwenty := by decide

theorem prefixMatch_iff_tenTwenty : Built [10, 20] tenTwenty ∧
    ∀ prng, (10 : BitVec 32) ≤ 15 ∧ (15 : BitVec 32) ≤ 20 ↔
      Matches tenTwenty 10 20 ((⟨tenTwenty, prng⟩ : OPETree (BitVec 32)).generateCiphertext 15).1 :=
  ⟨tenTwenty_built,
    (prefixMatch_iff tenTwenty_built (by decide) (by decide) (by decide) 15).1.2 (.inl (by decide))⟩

/-- The last address of the range itself misses its encrypted range for almost every draw. -/
theorem endpoint_mismatch : Built [10, 20] tenTwenty ∧ ((10 : BitVec 32) ≤ 20 ∧ (20 : BitVec 32) ≤ 20) ∧
    ¬ Matches tenTwenty 10 20 ((⟨tenTwenty, fun n => if n = 0 then 14514284786278117030 else
      4620546740167642908⟩ : OPETree (BitVec 32)).generateCiphertext 20).1 :=
  ⟨tenTwenty_built, by decide, by decide⟩

end OPETree

end Embark
