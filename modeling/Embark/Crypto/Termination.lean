/-
Decryption of arbitrary ciphertexts. A search ends only at a domain of one value, but a sample may
leave one half of the range without any. A ciphertext there is searched for until its range is
that one number, and from then on for ever; every other ciphertext is decrypted.
-/
import Embark.Crypto.Ope

namespace Embark

namespace OPE

open SplitTree

/-- A plaintext has the ciphertext in its range. -/
def InRange (prim : Primitives) (o : Params) (c : ℤ) : Prop :=
  ∃ p m, Below (gapOf prim o) (root o) m ∧ IsLeaf m p ∧ m.rLo ≤ c ∧ c ≤ m.rHi

variable {prim : Primitives} {o : Params} {c : ℤ}

/-- A search for a number in no range of a leaf under the node does not return. -/
theorem sampleFrom_ne_returned (hprim : prim.Lawful) (hbits : o.pbits ≤ o.cbits) (r : DomainRange × Cache) :
    ∀ {fuel : Nat} {n : Node} {cache : Cache}, Below (gapOf prim o) (root o) n → Sound prim o cache →
      n.rLo ≤ c → c ≤ n.rHi →
      (∀ m, Below (gapOf prim o) n m → m.ndomain = 1 → ¬ (m.rLo ≤ c ∧ c ≤ m.rHi)) →
      sampleFrom prim o (fun _ r => c < r) fuel n cache ≠ .returned r
  | 0, _, _, _, _, _, _, _ => nofun
  | fuel + 1, n, cache, hn, hc, hlo, hhi, hnone => by
    have hvalid := (hn.domain (gapOf_bounds hprim) (root_valid hbits)).1
    have hone : n.ndomain ≠ 1 := fun h => hnone n (.refl n) h ⟨hlo, hhi⟩
    by_cases htwo : 2 ≤ n.nrange
    · have hi : n.Inner := ⟨hone, htwo⟩
      obtain ⟨cache', hc', hstep⟩ := sampleFrom_inner hprim hbits hc hn hi fun _ r => c < r
      rw [hstep]
      by_cases hside : c < n.split
      · rw [if_pos (decide_eq_true hside)]
        exact sampleFrom_ne_returned hprim hbits r (hn.trans (.inLow hi (.refl _))) hc' hlo
          (Int.le_sub_one_of_lt hside) fun m hm => hnone m (.inLow hi hm)
      · rw [if_neg (by rw [decide_eq_false hside]; exact Bool.false_ne_true)]
        exact sampleFrom_ne_returned hprim hbits r (hn.trans (.inHigh hi (.refl _))) hc' (not_lt.1 hside) hhi
          fun m hm => hnone m (.inHigh hi hm)
    · -- the domain is empty, and the range is not halved any more
      have h1 := hvalid.nonneg
      have h2 := hvalid.le
      unfold Node.ndomain at h1 h2 hone
      unfold Node.nrange at h2 htwo
      exact lazySample_stuck hprim _ r (by omega) (by omega) (by omega) (hc.nonneg hprim hbits)

/-- Decryption of a ciphertext in no range does not return. -/
theorem decrypt_ne_returned (hprim : prim.Lawful) (hbits : o.pbits ≤ o.cbits) {cache : Cache}
    (hcache : Reachable prim o cache) (hlo : 0 ≤ c) (hhi : c ≤ 2 ^ o.cbits) (hnone : ¬ InRange prim o c)
    (fuel : Nat) (r : ℤ × Cache) : decrypt prim o c fuel cache ≠ .returned r := by
  have hsearch : ∀ r, search prim o (fun _ r => c < r) fuel cache ≠ .returned r := fun r =>
    sampleFrom_ne_returned hprim hbits r (.refl _) (hcache.sound hprim hbits) hlo hhi fun m hm hone hmem =>
      hnone ⟨m.dLo, m, hm, ⟨rfl, hone⟩, hmem⟩
  unfold decrypt
  cases hs : search prim o (fun _ r => c < r) fuel cache with
  | returned r => exact absurd hs (hsearch r)
  | threw => nofun
  | running => nofun

/-- Decryption returns exactly on the ciphertexts in the range of a plaintext. -/
theorem decrypt_returns_iff (hprim : prim.Lawful) (hbits : o.pbits ≤ o.cbits) {cache : Cache}
    (hcache : Reachable prim o cache) (hlo : 0 ≤ c) (hhi : c ≤ 2 ^ o.cbits) :
    (∃ p, Returns (decrypt prim o c · cache) p) ↔ InRange prim o c := by
  constructor
  · rintro ⟨p, n, -, hge⟩
    by_contra hnone
    obtain ⟨cache', hret⟩ := hge n le_rfl
    exact decrypt_ne_returned hprim hbits hcache hlo hhi hnone n _ hret
  · rintro ⟨p, m, hm, hleaf, hmlo, hmhi⟩
    exact ⟨p, decrypt_returns hprim hbits hm hleaf hmlo hmhi hcache⟩

/-! ## A key -/

/-- The primitives as they are for the key "embark" on one-bit plaintexts 0 and 1 and ciphertexts 0, 1
and 2: the first sample leaves the lower half of the range without a plaintext. -/
def skewPrimitives : Primitives where
  mac v _ := digest (if v = [0x2f, 0x01, 0x2f, 0x2f, 0x02] then
      0x14d7067ff2ee3b8037e476dfcede43367ea6760f5f0273b84ab9ec53ff658de0
    else if v = [0x2f, 0x01, 0x2f, 0x2f] then 0x29753dd718125da52c46d0bafeb866dda6bbcf00225ec329226d14a62d6e55ad
    else 0xd8e9975eae72df46eee8f9554d16b1f46c0699da8a3dce002586811373a1d59e)
  sha256 _ := digest 0x8c941bffd3df4eb0ab65b09d50a2ab213671d633d9ba372ac0f5dce227a31f11
  hgd k _ n2 _ := max 0 (k - n2)
  randZZMod _ _ := 0

/-- The key "embark". -/
def skewParams : Params := ⟨[0x65, 0x6d, 0x62, 0x61, 0x72, 0x6b], 0, 1⟩

theorem skewPrimitives_lawful : skewPrimitives.Lawful := by
  constructor
  · intro k n1 n2 rng h1 h2 hk hle
    exact ⟨le_rfl, by simp only [skewPrimitives]; omega⟩
  · intro rng m hm
    exact ⟨le_rfl, hm⟩

theorem decrypt_returns_skew : ∃ p, Returns (decrypt skewPrimitives skewParams 2 · fun _ => none) p := by
  have hroot : (root skewParams).Inner := ⟨by decide, by decide⟩
  have hhigh : (⟨0, 1, 1, 2⟩ : Node).Inner := ⟨by decide, by decide⟩
  have hbelow : Below (gapOf skewPrimitives skewParams) (root skewParams) ⟨1, 1, 2, 2⟩ :=
    .inHigh hroot (.inHigh hhigh (.refl _))
  exact (decrypt_returns_iff skewPrimitives_lawful (by decide) .fresh (by decide) (by decide)).2
    ⟨1, _, hbelow, ⟨rfl, rfl⟩, by decide, by decide⟩

/-- The ciphertext 0 is in no range, and decrypting it does not end. -/
theorem decrypt_skew_zero : ¬ ∃ p, Returns (decrypt skewPrimitives skewParams 0 · fun _ => none) p := by
  have hnone : ¬ InRange skewPrimitives skewParams 0 := by
    rintro ⟨p, m, hm, hleaf, hlo, -⟩
    cases hm with
    | refl => exact absurd hleaf.single (by decide)
    | inLow _ hm =>
      -- the lower half is one number without a domain
      cases hm with
      | refl => exact absurd hleaf.single (by decide)
      | inLow hi _ => exact absurd hi.two_le (by decide)
      | inHigh hi _ => exact absurd hi.two_le (by decide)
    | inHigh _ hm =>
      have hle := hm.le_rLo_of_high
      have hsplit : (root skewParams).split = 1 := rfl
      omega
  rintro ⟨p, n, -, hge⟩
  obtain ⟨cache, hret⟩ := hge n le_rfl
  exact decrypt_ne_returned skewPrimitives_lawful (by decide) .fresh le_rfl (by decide) hnone n _ hret

end OPE

end Embark
