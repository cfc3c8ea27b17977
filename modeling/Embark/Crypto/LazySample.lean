/-
The order-preserving encryption of `crypto/ope.cc`: a search down the halves of the range, which
samples at every step how much of the domain falls into the lower half and keeps the sample in a
cache. The hash functions, the hypergeometric sampler and the modular draw are parameters. The
recursion runs on fuel: `running` is a call that has not returned yet.
-/
import Embark.Lib.Bytes
import Mathlib.Data.Nat.Digits.Defs

namespace Embark

namespace OPE

/-- The state of a `blockrng<AES>`: its cipher key and its counter. -/
structure BlockRng where
  aesk : List Byte
  ctr : List Byte
deriving DecidableEq

/-- What the scheme is built on. -/
structure Primitives where
  /-- `hmac<sha256>::mac(v, key)`. -/
  mac : List Byte → List Byte → List Byte
  /-- `sha256::hash`. -/
  sha256 : List Byte → List Byte
  /-- `HGD(KK, NN1, NN2, prng)` for parameters that pass its check. -/
  hgd : ℤ → ℤ → ℤ → BlockRng → ℤ
  /-- `rand_zz_mod(max)`. -/
  randZZMod : BlockRng → ℤ → ℤ

/-- The sampler stays within the support of its distribution and the modular draw below its
modulus. -/
structure Primitives.Lawful (prim : Primitives) : Prop where
  hgd_mem : ∀ k n1 n2 rng, 0 ≤ n1 → 0 ≤ n2 → 0 ≤ k → k ≤ n1 + n2 →
    max 0 (k - n2) ≤ prim.hgd k n1 n2 rng ∧ prim.hgd k n1 n2 rng ≤ min k n1
  rand_mem : ∀ rng m, 0 < m → 0 ≤ prim.randZZMod rng m ∧ prim.randZZMod rng m < m

/-- `v.resize(n)`. -/
def resize (n : Nat) (v : List Byte) : List Byte := v.take n ++ List.replicate (n - v.length) 0

/-- `StringFromZZ`: the bytes of the absolute value, the least significant first. -/
def stringFromZZ (x : ℤ) : List Byte := (Nat.digits 256 x.natAbs).map (BitVec.ofNat 8)

/-- `dgap_cache`. -/
abbrev Cache := ℤ → Option ℤ

/-- `ope_domain_range`. -/
structure DomainRange where
  d : ℤ
  rLo : ℤ
  rHi : ℤ
deriving DecidableEq, Repr

/-- The outcome of a call: a value, an exception of `throw_c`, or none within the fuel. -/
inductive Outcome (α : Type)
  | returned (a : α)
  | threw
  | running
deriving Repr

/-- An `OPE` object, without its cache. -/
structure Params where
  key : List Byte
  pbits : Nat
  cbits : Nat

/-- `aesk`. -/
def Params.aesk (prim : Primitives) (o : Params) : List Byte := resize 16 (prim.sha256 o.key)

section Algorithm

variable (prim : Primitives) (o : Params)

/-- `HGD` with its check of the parameters; `none` is the exception. -/
def hgd (kk nn1 nn2 : ℤ) (rng : BlockRng) : Option ℤ :=
  if nn1 < 0 ∨ nn2 < 0 ∨ kk < 0 ∨ kk > nn1 + nn2 then none else some (prim.hgd kk nn1 nn2 rng)

/-- `domain_gap`. -/
def domainGap (ndomain nrange rgap : ℤ) (rng : BlockRng) : Option ℤ := hgd prim rgap ndomain (nrange - ndomain) rng

/-- The generator after `set_ctr` for a domain and a range. -/
def nodeRng (dLo dHi rLo rHi : ℤ) : BlockRng where
  aesk := o.aesk prim
  ctr := resize 16 (prim.mac (stringFromZZ dLo ++ [0x2f] ++ stringFromZZ dHi ++ [0x2f] ++ stringFromZZ rLo ++ [0x2f] ++
    stringFromZZ rHi) o.key)

/-- The lookup in the cache, and the sample where it misses. -/
def cachedGap (cache : Cache) (ndomain nrange rgap at_ : ℤ) (rng : BlockRng) : Option (ℤ × Cache) :=
  match cache at_ with
  | some dgap => some (dgap, cache)
  | none =>
    match domainGap prim ndomain nrange rgap rng with
    | none => none
    | some dgap => some (dgap, fun k => if k = at_ then some dgap else cache k)

/-- `lazy_sample`. -/
def lazySample (goLow : ℤ → ℤ → Bool) :
    Nat → ℤ → ℤ → ℤ → ℤ → Cache → Outcome (DomainRange × Cache)
  | 0, _, _, _, _, _ => .running
  | fuel + 1, dLo, dHi, rLo, rHi, cache =>
    let ndomain := dHi - dLo + 1
    let nrange := rHi - rLo + 1
    if nrange < ndomain then .threw
    else if ndomain = 1 then .returned (⟨dLo, rLo, rHi⟩, cache)
    else
      -- the generator is reset here, so a sample does not depend on the calls before
      let rgap := nrange / 2
      match cachedGap prim cache ndomain nrange rgap (rLo + rgap) (nodeRng prim o dLo dHi rLo rHi) with
      | none => .threw
      | some (dgap, cache) =>
        if goLow (dLo + dgap) (rLo + rgap) then
          lazySample goLow fuel dLo (dLo + dgap - 1) rLo (rLo + rgap - 1) cache
        else lazySample goLow fuel (dLo + dgap) dHi (rLo + rgap) rHi cache

/-- `search`. -/
def search (goLow : ℤ → ℤ → Bool) (fuel : Nat) (cache : Cache) : Outcome (DomainRange × Cache) :=
  lazySample prim o goLow fuel 0 (2 ^ o.pbits) 0 (2 ^ o.cbits) cache

/-- The ciphertext in the range of a plaintext. -/
def drawCiphertext (ptext : ℤ) (dr : DomainRange) : ℤ :=
  dr.rLo + prim.randZZMod ⟨o.aesk prim, resize 16 (prim.sha256 (stringFromZZ ptext))⟩ (dr.rHi - dr.rLo + 1)

/-- `encrypt`. -/
def encrypt (ptext : ℤ) (fuel : Nat) (cache : Cache) : Outcome (ℤ × Cache) :=
  match search prim o (fun d _ => ptext < d) fuel cache with
  | .returned (dr, cache) => .returned (drawCiphertext prim o ptext dr, cache)
  | .threw => .threw
  | .running => .running

/-- `decrypt`. -/
def decrypt (ctext : ℤ) (fuel : Nat) (cache : Cache) : Outcome (ℤ × Cache) :=
  match search prim o (fun _ r => ctext < r) fuel cache with
  | .returned (dr, cache) => .returned (dr.d, cache)
  | .threw => .threw
  | .running => .running

/-- The caches after calls that returned. -/
inductive Reachable : Cache → Prop
  | fresh : Reachable fun _ => none
  | encrypt {cache cache' : Cache} {fuel : Nat} {ptext ctext : ℤ} : Reachable cache →
      encrypt prim o ptext fuel cache = .returned (ctext, cache') → Reachable cache'
  | decrypt {cache cache' : Cache} {fuel : Nat} {ptext ctext : ℤ} : Reachable cache →
      decrypt prim o ctext fuel cache = .returned (ptext, cache') → Reachable cache'

end Algorithm

/-- A call that returns `a` on enough fuel, and is running on less: no exception is thrown. -/
def Returns {α : Type} (call : Nat → Outcome (α × Cache)) (a : α) : Prop :=
  ∃ n, (∀ fuel < n, call fuel = .running) ∧ ∀ fuel ≥ n, ∃ cache, call fuel = .returned (a, cache)

/-- One more step in front of a call. -/
theorem Returns.step {α : Type} {call call' : Nat → Outcome (α × Cache)} {a : α} (h : Returns call a)
    (hzero : call' 0 = .running) (hsucc : ∀ fuel, call' (fuel + 1) = call fuel) : Returns call' a := by
  obtain ⟨n, hlt, hge⟩ := h
  refine ⟨n + 1, fun fuel hfuel => ?_, fun fuel hfuel => ?_⟩
  · cases fuel with
    | zero => exact hzero
    | succ fuel => rw [hsucc, hlt fuel (by omega)]
  · obtain ⟨fuel, rfl⟩ := Nat.exists_eq_add_of_le' (Nat.one_le_of_lt hfuel)
    rw [hsucc]
    exact hge fuel (by omega)

end OPE

end Embark
