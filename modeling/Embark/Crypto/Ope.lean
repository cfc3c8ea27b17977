/-
The lazily sampled encryption keeps the order of the plaintexts, and decryption inverts it, after
any calls that returned. The calls walk down one split tree, which the key alone determines: as no
two of its nodes split at one point, a cached sample is the one its node would draw again.
-/
import Embark.Crypto.LazySample
import Embark.Lib.SplitTree

namespace Embark

namespace OPE

open SplitTree

section Tree

variable (prim : Primitives) (o : Params)

/-- The domain and range a search starts from. -/
def root : Node := ⟨0, 2 ^ o.pbits, 0, 2 ^ o.cbits⟩

/-- The sample that a node draws. -/
def gapOf (n : Node) : ℤ :=
  prim.hgd (n.nrange / 2) n.ndomain (n.nrange - n.ndomain) (nodeRng prim o n.dLo n.dHi n.rLo n.rHi)

/-- `lazy_sample` from a node. -/
def sampleFrom (goLow : ℤ → ℤ → Bool) (fuel : Nat) (n : Node) (cache : Cache) :
    Outcome (DomainRange × Cache) :=
  lazySample prim o goLow fuel n.dLo n.dHi n.rLo n.rHi cache

/-- Every cached number is the sample of the node that splits there. -/
def Sound (cache : Cache) : Prop :=
  ∀ k v, cache k = some v → ∃ n, Below (gapOf prim o) (root o) n ∧ n.Inner ∧ n.split = k ∧
    gapOf prim o n = v

end Tree

variable {prim : Primitives} {o : Params}

theorem root_valid (hbits : o.pbits ≤ o.cbits) : (root o).Valid := by
  have hpow : (2 : ℤ) ^ o.pbits ≤ 2 ^ o.cbits := pow_le_pow_right₀ (by decide) hbits
  have hpos : (0 : ℤ) < 2 ^ o.pbits := by positivity
  constructor
  · simp only [root, Node.ndomain]
    omega
  · simp only [root, Node.ndomain, Node.nrange]
    omega

theorem gapOf_bounds (hprim : prim.Lawful) : GapBounds (gapOf prim o) := by
  intro n hv hr
  have h1 := hv.nonneg
  have h2 := hv.le
  exact hprim.hgd_mem _ _ _ _ h1 (by omega) (by omega) (by omega)

theorem sound_fresh : Sound prim o fun _ => none := fun _ _ h => absurd h (by simp)

/-! ## One step -/

section Step

variable {n : Node} {cache : Cache}

/-- At a node of the tree the cache has the node's own sample, or none. -/
theorem cachedGap_eq (hprim : prim.Lawful) (hbits : o.pbits ≤ o.cbits) (hc : Sound prim o cache)
    (h : Below (gapOf prim o) (root o) n) (hn : n.Inner) :
    ∃ cache', cachedGap prim cache n.ndomain n.nrange (n.nrange / 2) n.split
      (nodeRng prim o n.dLo n.dHi n.rLo n.rHi) = some (gapOf prim o n, cache') ∧ Sound prim o cache' := by
  unfold cachedGap
  cases hk : cache n.split with
  | some v =>
    obtain ⟨m, hm, hmi, hsplit, hv⟩ := hc _ _ hk
    -- the node that split here before is this one
    obtain rfl := h.split_inj hn hm hmi hsplit.symm
    exact ⟨cache, by rw [hv], hc⟩
  | none =>
    have hvalid := (h.domain (gapOf_bounds hprim) (root_valid hbits)).1
    have h1 := hvalid.nonneg
    have h2 := hvalid.le
    -- the parameters of the sampler pass its check
    have hdraw : domainGap prim n.ndomain n.nrange (n.nrange / 2) (nodeRng prim o n.dLo n.dHi n.rLo n.rHi) =
        some (gapOf prim o n) := if_neg (by omega)
    rw [hdraw]
    refine ⟨_, rfl, fun k v hkv => ?_⟩
    by_cases heq : k = n.split
    · rw [if_pos heq] at hkv
      exact ⟨n, h, hn, heq.symm, Option.some.inj hkv⟩
    · rw [if_neg heq] at hkv
      exact hc k v hkv

/-- At an inner node a search goes on in one of the halves. -/
theorem sampleFrom_inner (hprim : prim.Lawful) (hbits : o.pbits ≤ o.cbits) (hc : Sound prim o cache)
    (h : Below (gapOf prim o) (root o) n) (hn : n.Inner) (goLow : ℤ → ℤ → Bool) :
    ∃ cache', Sound prim o cache' ∧ ∀ fuel, sampleFrom prim o goLow (fuel + 1) n cache =
      if goLow (n.dLo + gapOf prim o n) n.split then sampleFrom prim o goLow fuel (low (gapOf prim o) n) cache'
      else sampleFrom prim o goLow fuel (high (gapOf prim o) n) cache' := by
  obtain ⟨cache', hgap, hc'⟩ := cachedGap_eq hprim hbits hc h hn
  refine ⟨cache', hc', fun fuel => ?_⟩
  have hvalid := (h.domain (gapOf_bounds hprim) (root_valid hbits)).1
  have hle := hvalid.le
  have hne := hn.ndomain_ne
  show lazySample prim o goLow (fuel + 1) n.dLo n.dHi n.rLo n.rHi cache =
    if goLow (n.dLo + gapOf prim o n) n.split then
      lazySample prim o goLow fuel n.dLo (n.dLo + gapOf prim o n - 1) n.rLo (n.split - 1) cache'
    else lazySample prim o goLow fuel (n.dLo + gapOf prim o n) n.dHi n.split n.rHi cache'
  unfold Node.split Node.ndomain Node.nrange at *
  rw [lazySample]
  dsimp only
  rw [if_neg (by omega), if_neg hne, hgap]

/-- At a leaf a search ends. -/
theorem sampleFrom_leaf (hv : n.Valid) (hn : n.ndomain = 1) (goLow : ℤ → ℤ → Bool) (fuel : Nat) :
    sampleFrom prim o goLow (fuel + 1) n cache = .returned (⟨n.dLo, n.rLo, n.rHi⟩, cache) := by
  have hle := hv.le
  unfold Node.ndomain at hn hle
  unfold Node.nrange at hle
  unfold sampleFrom lazySample
  dsimp only
  rw [if_neg (by omega), if_pos hn]

end Step

/-! ## Calls that return -/

/-- Where the cache has no negative numbers, neither is the gap of any node, nor the cache after
it: a sample is at least zero, and parameters out of bounds throw. -/
theorem cachedGap_nonneg (hprim : prim.Lawful) {cache cache' : Cache} {ndomain nrange rgap k dgap : ℤ}
    {rng : BlockRng} (hc : ∀ k v, cache k = some v → 0 ≤ v)
    (h : cachedGap prim cache ndomain nrange rgap k rng = some (dgap, cache')) :
    0 ≤ dgap ∧ ∀ k v, cache' k = some v → 0 ≤ v := by
  unfold cachedGap at h
  split at h
  · rename_i v hv
    obtain ⟨rfl, rfl⟩ : v = dgap ∧ cache = cache' := by simpa using h
    exact ⟨hc _ _ hv, hc⟩
  · split at h
    · cases h
    · rename_i g hg
      have hg0 : 0 ≤ g := by
        unfold domainGap hgd at hg
        split at hg
        · cases hg
        · have hmem :=
            (hprim.hgd_mem rgap ndomain (nrange - ndomain) rng (by omega) (by omega) (by omega) (by omega)).1
          rw [← Option.some.inj hg]
          omega
      obtain ⟨rfl, rfl⟩ : g = dgap ∧ (fun i => if i = k then some g else cache i) = cache' := by simpa using h
      refine ⟨hg0, fun i v hi => ?_⟩
      dsimp only at hi
      split at hi
      · rwa [← Option.some.inj hi]
      · exact hc i v hi

/-- A search with more domain values than range does not return. -/
theorem lazySample_of_lt (goLow : ℤ → ℤ → Bool) (r : DomainRange × Cache) {dLo dHi rLo rHi : ℤ}
    {cache : Cache} (h : rHi - rLo + 1 < dHi - dLo + 1) :
    ∀ fuel, lazySample prim o goLow fuel dLo dHi rLo rHi cache ≠ .returned r
  | 0 => nofun
  | fuel + 1 => by
    unfold lazySample
    dsimp only
    rw [if_pos h]
    nofun

/-- A search in an empty domain and a range of at most one number does not return. -/
theorem lazySample_stuck (hprim : prim.Lawful) (goLow : ℤ → ℤ → Bool) (r : DomainRange × Cache) :
    ∀ {fuel : Nat} {dLo dHi rLo rHi : ℤ} {cache : Cache}, dHi - dLo + 1 ≤ 0 → 0 ≤ rHi - rLo + 1 →
      rHi - rLo + 1 ≤ 1 → (∀ k v, cache k = some v → 0 ≤ v) →
      lazySample prim o goLow fuel dLo dHi rLo rHi cache ≠ .returned r
  | 0, _, _, _, _, _, _, _, _, _ => nofun
  | fuel + 1, dLo, dHi, rLo, rHi, cache, hd, hr0, hr1, hc => by
    unfold lazySample
    dsimp only
    rw [if_neg (by omega), if_neg (by omega)]
    -- the range is not halved any more, and the number of domain values stays below one
    have hhalf : (rHi - rLo + 1) / 2 = 0 := by omega
    rw [hhalf]
    cases hgap : cachedGap prim cache (dHi - dLo + 1) (rHi - rLo + 1) 0 (rLo + 0)
        (nodeRng prim o dLo dHi rLo rHi) with
    | none => nofun
    | some p =>
      obtain ⟨dgap, cache'⟩ := p
      obtain ⟨hdgap, hc'⟩ := cachedGap_nonneg hprim hc hgap
      dsimp only
      split
      · by_cases hzero : dgap = 0
        · exact lazySample_stuck hprim goLow r (by omega) (by omega) (by omega) hc'
        · exact lazySample_of_lt goLow r (by omega) fuel
      · exact lazySample_stuck hprim goLow r (by omega) (by omega) (by omega) hc'

theorem Sound.nonneg {cache : Cache} (hprim : prim.Lawful) (hbits : o.pbits ≤ o.cbits) (hc : Sound prim o cache)
    (k v : ℤ) (hv : cache k = some v) : 0 ≤ v := by
  obtain ⟨n, h, hn, -, rfl⟩ := hc k v hv
  have hvalid := (h.domain (gapOf_bounds hprim) (root_valid hbits)).1
  have := (gapOf_bounds (o := o) hprim n hvalid hn.two_le).1
  omega

/-- A search that returns leaves a sound cache. -/
theorem sampleFrom_sound (hprim : prim.Lawful) (hbits : o.pbits ≤ o.cbits) (goLow : ℤ → ℤ → Bool)
    {dr : DomainRange} {cache' : Cache} : ∀ {fuel : Nat} {n : Node} {cache : Cache},
    Below (gapOf prim o) (root o) n → Sound prim o cache →
    sampleFrom prim o goLow fuel n cache = .returned (dr, cache') → Sound prim o cache'
  | 0, _, _, _, _, h => by
    unfold sampleFrom lazySample at h
    cases h
  | fuel + 1, n, cache, hn, hc, h => by
    have hvalid := (hn.domain (gapOf_bounds hprim) (root_valid hbits)).1
    by_cases hone : n.ndomain = 1
    · rw [sampleFrom_leaf hvalid hone] at h
      injection h with h
      injection h with _ hcache
      rwa [← hcache]
    · by_cases htwo : 2 ≤ n.nrange
      · have hi : n.Inner := ⟨hone, htwo⟩
        obtain ⟨cache₁, hc₁, hstep⟩ := sampleFrom_inner hprim hbits hc hn hi goLow
        rw [hstep] at h
        split at h
        · exact sampleFrom_sound hprim hbits goLow (hn.trans (.inLow hi (.refl _))) hc₁ h
        · exact sampleFrom_sound hprim hbits goLow (hn.trans (.inHigh hi (.refl _))) hc₁ h
      · have h1 := hvalid.nonneg
        have h2 := hvalid.le
        unfold Node.ndomain at h1 h2 hone
        unfold Node.nrange at h2 htwo
        exact absurd h (lazySample_stuck hprim goLow _ (by omega) (by omega) (by omega) (hc.nonneg hprim hbits))

/-- Calls that return leave a sound cache. -/
theorem Reachable.sound (hprim : prim.Lawful) (hbits : o.pbits ≤ o.cbits) {cache : Cache}
    (h : Reachable prim o cache) : Sound prim o cache := by
  induction h with
  | fresh => exact sound_fresh
  | encrypt _ hcall ih =>
    unfold OPE.encrypt at hcall
    split at hcall
    · rename_i hsearch
      injection hcall with hcall
      injection hcall with _ hcache
      rw [← hcache]
      exact sampleFrom_sound hprim hbits _ (.refl _) ih hsearch
    · cases hcall
    · cases hcall
  | decrypt _ hcall ih =>
    unfold OPE.decrypt at hcall
    split at hcall
    · rename_i hsearch
      injection hcall with hcall
      injection hcall with _ hcache
      rw [← hcache]
      exact sampleFrom_sound hprim hbits _ (.refl _) ih hsearch
    · cases hcall
    · cases hcall

/-! ## The way to a leaf -/

/-- A test that leads to the leaf `m` from everywhere above it. -/
def LeadsTo (prim : Primitives) (o : Params) (goLow : ℤ → ℤ → Bool) (m : Node) : Prop :=
  ∀ n, Below (gapOf prim o) (root o) n → n.Inner →
    (Below (gapOf prim o) (low (gapOf prim o) n) m → goLow (n.dLo + gapOf prim o n) n.split = true) ∧
    (Below (gapOf prim o) (high (gapOf prim o) n) m → goLow (n.dLo + gapOf prim o n) n.split = false)

/-- A search whose test leads to a leaf returns it. -/
theorem sampleFrom_returns (hprim : prim.Lawful) (hbits : o.pbits ≤ o.cbits) {goLow : ℤ → ℤ → Bool} {m : Node}
    (hm : m.ndomain = 1) (hgo : LeadsTo prim o goLow m) {n : Node} (h : Below (gapOf prim o) n m) :
    Below (gapOf prim o) (root o) n → ∀ cache, Sound prim o cache →
      Returns (sampleFrom prim o goLow · n cache) ⟨m.dLo, m.rLo, m.rHi⟩ := by
  induction h with
  | refl m =>
    intro hroot cache _
    have hvalid := (hroot.domain (gapOf_bounds hprim) (root_valid hbits)).1
    refine ⟨1, fun fuel hlt => ?_, fun fuel hge => ?_⟩
    · obtain rfl : fuel = 0 := by omega
      rfl
    · obtain ⟨fuel, rfl⟩ := Nat.exists_eq_add_of_le' hge
      exact ⟨cache, sampleFrom_leaf hvalid hm goLow fuel⟩
  | @inLow n m hi hbelow ih =>
    intro hroot cache hc
    obtain ⟨cache', hc', hstep⟩ := sampleFrom_inner hprim hbits hc hroot hi goLow
    have hgoes := (hgo n hroot hi).1 hbelow
    refine (ih hm hgo (hroot.trans (.inLow hi (.refl _))) cache' hc').step rfl fun fuel => ?_
    rw [hstep, hgoes, if_pos rfl]
  | @inHigh n m hi hbelow ih =>
    intro hroot cache hc
    obtain ⟨cache', hc', hstep⟩ := sampleFrom_inner hprim hbits hc hroot hi goLow
    have hgoes := (hgo n hroot hi).2 hbelow
    refine (ih hm hgo (hroot.trans (.inHigh hi (.refl _))) cache' hc').step rfl fun fuel => ?_
    rw [hstep, hgoes, if_neg (by simp)]

section Calls

variable {m : Node} {p c : ℤ} {cache : Cache}

/-- The test of `encrypt` leads to the leaf of the plaintext. -/
theorem leadsTo_encrypt (hprim : prim.Lawful) (hbits : o.pbits ≤ o.cbits) (hm : IsLeaf m p) :
    LeadsTo prim o (fun d _ => p < d) m := by
  intro n hn hi
  have hgap := gapOf_bounds (o := o) hprim
  have hvalid := (hn.domain hgap (root_valid hbits)).1
  constructor
  · intro hlow
    have hle := (hlow.domain hgap (valid_low hgap hvalid hi)).2.2
    rw [hm.dHi] at hle
    simp only [low] at hle
    exact decide_eq_true (by omega)
  · intro hhigh
    have hle := (hhigh.domain hgap (valid_high hgap hvalid hi)).2.1
    rw [hm.dLo] at hle
    simp only [high] at hle
    exact decide_eq_false (by omega)

/-- The test of `decrypt` leads to the leaf whose range has the ciphertext. -/
theorem leadsTo_decrypt (hlo : m.rLo ≤ c) (hhi : c ≤ m.rHi) : LeadsTo prim o (fun _ r => c < r) m := by
  intro n _ _
  constructor
  · intro hlow
    have := hlow.rHi_lt_of_low
    exact decide_eq_true (by omega)
  · intro hhigh
    have := hhigh.le_rLo_of_high
    exact decide_eq_false (by omega)

/-- The ciphertext of a plaintext with the leaf `m`. -/
def ciphertextAt (prim : Primitives) (o : Params) (p : ℤ) (m : Node) : ℤ :=
  drawCiphertext prim o p ⟨m.dLo, m.rLo, m.rHi⟩

theorem ciphertextAt_mem (hprim : prim.Lawful) (hv : m.Valid) (hm : IsLeaf m p) :
    m.rLo ≤ ciphertextAt prim o p m ∧ ciphertextAt prim o p m ≤ m.rHi := by
  have hle := hv.le
  rw [hm.single] at hle
  unfold Node.nrange at hle
  have hdraw := hprim.rand_mem ⟨o.aesk prim, resize 16 (prim.sha256 (stringFromZZ p))⟩ (m.rHi - m.rLo + 1)
    (by omega)
  unfold ciphertextAt drawCiphertext
  dsimp only
  omega

/-- A call that makes one search returns when its search does. -/
theorem Returns.map {α β : Type} {call : Nat → Outcome (α × Cache)} {call' : Nat → Outcome (β × Cache)}
    {a : α} {b : β} (h : Returns call a) (hrunning : ∀ fuel, call fuel = .running → call' fuel = .running)
    (hreturned : ∀ fuel cache, call fuel = .returned (a, cache) → call' fuel = .returned (b, cache)) :
    Returns call' b := by
  obtain ⟨n, hlt, hge⟩ := h
  refine ⟨n, fun fuel hfuel => hrunning fuel (hlt fuel hfuel), fun fuel hfuel => ?_⟩
  obtain ⟨cache, hcall⟩ := hge fuel hfuel
  exact ⟨cache, hreturned fuel cache hcall⟩

theorem encrypt_returns (hprim : prim.Lawful) (hbits : o.pbits ≤ o.cbits) (hroot : Below (gapOf prim o) (root o) m)
    (hm : IsLeaf m p) (hc : Reachable prim o cache) :
    Returns (encrypt prim o p · cache) (ciphertextAt prim o p m) := by
  have h := sampleFrom_returns hprim hbits hm.single (leadsTo_encrypt hprim hbits hm) hroot (.refl _) cache
    (hc.sound hprim hbits)
  refine h.map (fun fuel hrun => ?_) fun fuel cache' hrun => ?_
  · have hsearch : search prim o (fun d _ => p < d) fuel cache = .running := hrun
    simp only [encrypt, hsearch]
  · have hsearch : search prim o (fun d _ => p < d) fuel cache = .returned (⟨m.dLo, m.rLo, m.rHi⟩, cache') := hrun
    simp only [encrypt, hsearch, ciphertextAt]

theorem decrypt_returns (hprim : prim.Lawful) (hbits : o.pbits ≤ o.cbits) (hroot : Below (gapOf prim o) (root o) m)
    (hm : IsLeaf m p) (hlo : m.rLo ≤ c) (hhi : c ≤ m.rHi) (hc : Reachable prim o cache) :
    Returns (decrypt prim o c · cache) p := by
  have h := sampleFrom_returns hprim hbits hm.single (leadsTo_decrypt hlo hhi) hroot (.refl _) cache
    (hc.sound hprim hbits)
  refine h.map (fun fuel hrun => ?_) fun fuel cache' hrun => ?_
  · have hsearch : search prim o (fun _ r => c < r) fuel cache = .running := hrun
    simp only [decrypt, hsearch]
  · have hsearch : search prim o (fun _ r => c < r) fuel cache = .returned (⟨m.dLo, m.rLo, m.rHi⟩, cache') := hrun
    simp only [decrypt, hsearch, hm.dLo]

end Calls

/-- For plaintexts `p < q` of the domain, encryption and decryption return after any calls that
returned: always the same ciphertexts, in the order of the plaintexts, and these plaintexts
again. -/
theorem encrypt_lt_and_decrypt (hprim : prim.Lawful) (hbits : o.pbits ≤ o.cbits) {p q : ℤ} (hp : 0 ≤ p)
    (hpq : p < q) (hq : q ≤ 2 ^ o.pbits) :
    ∃ cp cq, cp < cq ∧ ∀ cache, Reachable prim o cache →
      Returns (encrypt prim o p · cache) cp ∧ Returns (encrypt prim o q · cache) cq ∧
      Returns (decrypt prim o cp · cache) p ∧ Returns (decrypt prim o cq · cache) q := by
  have hgap := gapOf_bounds (o := o) hprim
  have hroot := root_valid hbits
  obtain ⟨m, hm, hmp⟩ := exists_leaf hgap (d := p) _ le_rfl hroot hp (by simp only [root]; omega)
  obtain ⟨m', hm', hmq⟩ := exists_leaf hgap (d := q) _ le_rfl hroot (by simp only [root]; omega) hq
  obtain ⟨hplo, hphi⟩ := ciphertextAt_mem (o := o) hprim (hm.domain hgap hroot).1 hmp
  obtain ⟨hqlo, hqhi⟩ := ciphertextAt_mem (o := o) hprim (hm'.domain hgap hroot).1 hmq
  have hranges := hm.leaf_lt hgap hpq hmp hroot hm' hmq
  refine ⟨ciphertextAt prim o p m, ciphertextAt prim o q m', by omega, fun cache hc => ⟨?_, ?_, ?_, ?_⟩⟩
  · exact encrypt_returns hprim hbits hm hmp hc
  · exact encrypt_returns hprim hbits hm' hmq hc
  · exact decrypt_returns hprim hbits hm hmp hplo hphi hc
  · exact decrypt_returns hprim hbits hm' hmq hqlo hqhi hc

/-- The 32 bytes of a digest. -/
def digest (x : Nat) : List Byte := (toLE 32 x).reverse

/-- The primitives as they are for the key "hello world" on one-bit domains and ranges of equal
size, where every sample is the whole lower half and every draw is modulo one. -/
def tightPrimitives : Primitives where
  mac v _ := digest (if v = [0x2f, 0x01, 0x2f, 0x2f, 0x01] then
    0x627554deaedbc5f573da0620b45bdf3b4bb3eaba68068a31d1963198dbf5e4df else 0)
  sha256 v := digest (if v = [] then 0xe3b0c44298fc1c149afbf4c8996fb92427ae41e4649b934ca495991b7852b855
    else if v = [0x01] then 0x4bf5122f344554c53bde2ebb8cd2b7e3d1600ad631c385a5d7cce23c7785459a
    else 0xb94d27b9934d3e08a52e52d7da7dabfac484efe37a5380ee9088f7ace2efcde9)
  hgd k _ n2 _ := max 0 (k - n2)
  randZZMod _ _ := 0

theorem tightPrimitives_lawful : tightPrimitives.Lawful := by
  constructor
  · intro k n1 n2 rng h1 h2 hk hle
    exact ⟨le_rfl, by simp only [tightPrimitives]; omega⟩
  · intro rng m hm
    exact ⟨le_rfl, hm⟩

theorem encrypt_lt_and_decrypt_tight :
    let o : Params := ⟨[0x68, 0x65, 0x6c, 0x6c, 0x6f, 0x20, 0x77, 0x6f, 0x72, 0x6c, 0x64], 0, 0⟩
    ∃ cp cq, cp < cq ∧ ∀ cache, Reachable tightPrimitives o cache →
      Returns (encrypt tightPrimitives o 0 · cache) cp ∧ Returns (encrypt tightPrimitives o 1 · cache) cq ∧
      Returns (decrypt tightPrimitives o cp · cache) 0 ∧ Returns (decrypt tightPrimitives o cq · cache) 1 :=
  encrypt_lt_and_decrypt tightPrimitives_lawful le_rfl le_rfl (by decide) (by decide)

end OPE

end Embark
