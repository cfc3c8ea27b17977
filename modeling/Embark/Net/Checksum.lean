/-
Internet checksums: `click_in_cksum` with its pseudo-headers, and `in6_fast_cksum`, with their
32-bit accumulators, and what each computes as a one's complement sum. A checksum is valid when
the sum over the pseudo-header and the segment that holds it is all ones.
-/
import Embark.Lib.OnesComplement
import Embark.Net.Packet

namespace Embark

open OnesComplement

/-! ## The functions -/

/-- The loop of both functions: the words of `nleft` bytes at `w`, each through `conv`, and the
odd byte as the first byte of a word. -/
def sumWords (conv : BitVec 16 → BitVec 16) (m : Memory) : Nat → Nat → BitVec 32 → BitVec 32
  | w, nleft + 2, sum => sumWords conv m (w + 2) nleft (sum + (conv (m.load 16 w)).setWidth 32)
  | w, 1, sum => sum + (conv ((m w).setWidth 16)).setWidth 32
  | _, 0, sum => sum

/-- "add back carry outs from top 16 bits to low 16 bits" -/
def addCarries (sum : BitVec 32) : BitVec 32 :=
  let sum := (sum &&& 0xffff#32) + (sum >>> 16)
  sum + (sum >>> 16)

/-- `click_in_cksum`. -/
def inCksum (m : Memory) (addr : Nat) (len : Int) : BitVec 16 :=
  (~~~(addCarries (sumWords id m addr len.toNat 0))).setWidth 16

/-- `click_in_cksum_pseudohdr_raw`; the asserted `csum <= 0xFFFF` holds of a word of 16 bits. -/
def inCksumPseudohdrRaw (csum : BitVec 16) (src dst : BitVec 32) (proto : Byte) (packetLen : Int) : BitVec 16 :=
  let sum : BitVec 32 := (~~~csum).setWidth 32
  let sum := sum + ((src &&& 0xffff#32) + (src >>> 16))
  let sum := sum + ((dst &&& 0xffff#32) + (dst >>> 16))
  let sum := sum + ((htons (BitVec.ofInt 16 packetLen)).setWidth 32 + (htons (proto.setWidth 16)).setWidth 32)
  (~~~(addCarries sum)).setWidth 16

/-- The loop of `click_in_cksum_pseudohdr_hard` over the options: where the last address of a
source route is read. An option takes at least one byte, so `end_opt - opt` rounds are enough. -/
def sourceRoute (m : Memory) (endOpt : Nat) : Nat → Nat → Option Nat
  | 0, _ => none
  | n + 1, opt =>
    if opt < endOpt then
      if m opt = 1 then sourceRoute m endOpt n (opt + 1)
      else if m opt = 0 then none
      else
        let len := (m (opt + 1)).toNat
        if endOpt ≤ opt + 1 ∨ len < 2 ∨ endOpt < opt + len then none
        else if (m opt = 137 ∨ m opt = 131) ∧ 7 ≤ len then some (opt + len - 4)
        else sourceRoute m endOpt n (opt + len)
    else none

/-- Where the destination of the pseudo-header is read: at `ip_dst`, or in a source route. -/
def pseudoDst (m : Memory) (iph : Nat) : Nat :=
  if ipHl m iph = 5 then iph + 16
  else (sourceRoute m (iph + ipHl m iph * 4) (ipHl m iph * 4) (iph + 20)).getD (iph + 16)

/-- `click_in_cksum_pseudohdr`. -/
def inCksumPseudohdr (csum : BitVec 16) (m : Memory) (iph : Nat) (transportLen : Int) : BitVec 16 :=
  inCksumPseudohdrRaw csum (m.load 32 (iph + 12)) (m.load 32 (pseudoDst m iph)) (ipP m iph) transportLen

/-- `csum += x; carry = (csum < x); csum += carry`. -/
def addCarry (csum x : BitVec 32) : BitVec 32 :=
  let csum' := csum + x
  csum' + (if csum' < x then 1 else 0)

/-- `while (csum>>16) csum = (csum & 0xffff) + (csum >> 16)`, at most the given number of rounds. -/
def foldCarries : Nat → BitVec 32 → BitVec 32
  | 0, csum => csum
  | n + 1, csum => if csum >>> 16 ≠ 0 then foldCarries n ((csum &&& 0xffff#32) + (csum >>> 16)) else csum

/-- The sums of both addresses in `in6_fast_cksum`. -/
def addressSum (m : Memory) (saddr daddr : Nat) : BitVec 32 :=
  let csum := (List.range 4).foldl (fun csum i => addCarry csum (ntohl (m.load 32 (saddr + 4 * i)))) 0
  (List.range 4).foldl (fun csum i => addCarry csum (ntohl (m.load 32 (daddr + 4 * i)))) csum

/-- `in6_fast_cksum`; two rounds fold 32 bits. -/
def in6FastCksum (m : Memory) (saddr daddr : Nat) (len : BitVec 16) (proto : Byte) (oriCsum : BitVec 16) (addr : Nat)
    (len2 : BitVec 16) : BitVec 16 :=
  let csum := addressSum m saddr daddr
  let csum := csum + (ntohs len).setWidth 32
  let csum := csum + proto.setWidth 32
  let csum := sumWords ntohs m addr (ntohs len2).toNat csum
  let csum := csum - (ntohs oriCsum).setWidth 32
  (~~~(foldCarries 2 csum)).setWidth 16

/-! ## Words of a range -/

/-- The words of the `n` bytes at `a`, as the host reads them. -/
def hostWords (m : Memory) : Nat → Nat → List (BitVec 16)
  | a, n + 2 => m.load 16 a :: hostWords m (a + 2) n
  | a, 1 => [(m a).setWidth 16]
  | _, 0 => []

/-- The sum of the words, each through `conv`. -/
def wordSum (conv : BitVec 16 → BitVec 16) (m : Memory) (a n : Nat) : Nat :=
  ((hostWords m a n).map fun w => (conv w).toNat).sum

/-- The sum of the words as the host reads them. -/
def hostSum (m : Memory) (a n : Nat) : Nat := wordSum id m a n

/-- The words in network order, as numbers. -/
def netWords (m : Memory) (a n : Nat) : List Nat := (hostWords m a n).map fun w => (ntohs w).toNat

/-- The sum of the words in network order. -/
def netSum (m : Memory) (a n : Nat) : Nat := wordSum ntohs m a n

theorem toNat_append {w v : Nat} (x : BitVec w) (y : BitVec v) : (x ++ y).toNat = 2 ^ v * x.toNat + y.toNat := by
  rw [BitVec.toNat_append, Nat.shiftLeft_eq, Nat.mul_comm, ← Nat.two_pow_add_eq_or_of_lt y.isLt]

theorem ntohs_toNat (x : BitVec 16) : (ntohs x).toNat = 256 * (x.toNat % 256) + x.toNat / 256 := by
  have hx := x.isLt
  unfold ntohs htons
  simp only [toNat_append, BitVec.extractLsb'_toNat, Nat.shiftRight_eq_div_pow]
  omega

theorem ntohl_toNat (x : BitVec 32) : (ntohl x).toNat =
    2 ^ 24 * (x.toNat % 256) + 2 ^ 16 * (x.toNat / 2 ^ 8 % 256) + 2 ^ 8 * (x.toNat / 2 ^ 16 % 256) +
      x.toNat / 2 ^ 24 := by
  have hx := x.isLt
  unfold ntohl htonl
  simp only [toNat_append, BitVec.extractLsb'_toNat, Nat.shiftRight_eq_div_pow]
  omega

/-- Exchanging the bytes of a word multiplies it by 256 modulo 65535. -/
theorem ntohs_modEq (x : BitVec 16) : (ntohs x).toNat ≡ 256 * x.toNat [MOD 2 ^ 16 - 1] := by
  rw [ntohs_toNat]
  unfold Nat.ModEq
  have := x.isLt
  omega

theorem netSum_modEq (m : Memory) (a n : Nat) : netSum m a n ≡ 256 * hostSum m a n [MOD 2 ^ 16 - 1] := by
  unfold netSum hostSum wordSum
  induction hostWords m a n with
  | nil => rfl
  | cons w ws ih =>
    rw [List.map_cons, List.sum_cons, List.map_cons, List.sum_cons, Nat.mul_add]
    exact (ntohs_modEq w).add ih

/-- The words are all zero in one order when they are in the other. -/
theorem hostSum_eq_zero {m : Memory} {a n : Nat} : netSum m a n = 0 → hostSum m a n = 0 := by
  unfold netSum hostSum wordSum
  induction hostWords m a n with
  | nil => exact fun _ => rfl
  | cons w ws ih =>
    intro h
    rw [List.map_cons, List.sum_cons, Nat.add_eq_zero_iff] at h ⊢
    have hw := ntohs_toNat w
    refine ⟨?_, ih h.2⟩
    show w.toNat = 0
    omega

theorem wordSum_le (conv : BitVec 16 → BitVec 16) (m : Memory) : ∀ a n, wordSum conv m a n ≤ 65535 * ((n + 1) / 2)
  | _, 0 => Nat.le_refl 0
  | a, 1 => by
    have hw := (conv ((m a).setWidth 16)).isLt
    simp only [wordSum, hostWords, List.map_cons, List.map_nil, List.sum_cons, List.sum_nil]
    omega
  | a, n + 2 => by
    have hw := (conv (m.load 16 a)).isLt
    have ih := wordSum_le conv m (a + 2) n
    simp only [wordSum, hostWords, List.map_cons, List.sum_cons] at ih ⊢
    omega

theorem wordSum_cons (conv : BitVec 16 → BitVec 16) (m : Memory) (a n : Nat) :
    wordSum conv m a (n + 2) = (conv (m.load 16 a)).toNat + wordSum conv m (a + 2) n := rfl

/-- The loop adds the words modulo `2^32`. -/
theorem sumWords_toNat (conv : BitVec 16 → BitVec 16) (m : Memory) : ∀ (a n : Nat) (s : BitVec 32),
    (sumWords conv m a n s).toNat = (s.toNat + wordSum conv m a n) % 2 ^ 32
  | _, 0, s => by simp [sumWords, wordSum, hostWords, Nat.mod_eq_of_lt s.isLt]
  | a, 1, s => by simp [sumWords, wordSum, hostWords, BitVec.toNat_add]
  | a, n + 2, s => by
    have hw := (conv (m.load 16 a)).isLt
    rw [sumWords, sumWords_toNat conv m (a + 2) n, wordSum_cons, BitVec.toNat_add, BitVec.toNat_setWidth,
      Nat.mod_eq_of_lt (show (conv (m.load 16 a)).toNat < 2 ^ 32 by omega), Nat.mod_add_mod, Nat.add_assoc]

theorem hostWords_congr {m m' : Memory} : ∀ {a n : Nat}, (∀ i, a ≤ i → i < a + n → m i = m' i) →
    hostWords m a n = hostWords m' a n
  | _, 0, _ => rfl
  | a, 1, h => by rw [hostWords, hostWords, h a le_rfl (by omega)]
  | a, n + 2, h => by
    have hload : m.load 16 a = m'.load 16 a := by
      unfold Memory.load
      rw [Memory.loadLE_congr fun i h1 h2 => h i h1 (by omega)]
    rw [hostWords, hostWords, hload, hostWords_congr fun i h1 h2 => h i (by omega) (by omega)]

/-- A store outside the range leaves its words. -/
theorem wordSum_store_of_disjoint (conv : BitVec 16 → BitVec 16) (m : Memory) {a n b : Nat} (x : BitVec 16)
    (h : a + n ≤ b ∨ b + 2 ≤ a) : wordSum conv (m.store b x) a n = wordSum conv m a n := by
  unfold wordSum
  rw [hostWords_congr fun i h1 h2 => Memory.store_of_disjoint m x (by omega)]

/-- A word stored where there was zero adds to the sum. -/
theorem wordSum_store {conv : BitVec 16 → BitVec 16} (hconv : conv 0 = 0) (m : Memory) (x : BitVec 16) :
    ∀ {k a n : Nat}, 2 * k + 2 ≤ n →
      wordSum conv (m.store (a + 2 * k) x) a n = wordSum conv (m.store (a + 2 * k) (0 : BitVec 16)) a n + (conv x).toNat
  | 0, a, n + 2, _ => by
    have hstore : ∀ y : BitVec 16, wordSum conv (m.store a y) a (n + 2) = (conv y).toNat +
      wordSum conv m (a + 2) n := by
      intro y
      rw [wordSum_cons, Memory.load_store m (by decide), wordSum_store_of_disjoint conv m y (.inr le_rfl)]
    rw [Nat.mul_zero, Nat.add_zero, hstore, hstore, hconv, show (0 : BitVec 16).toNat = 0 from rfl]
    omega
  | k + 1, a, n + 2, hn => by
    have hstore : ∀ y : BitVec 16, wordSum conv (m.store (a + 2 * (k + 1)) y) a (n + 2) =
        (conv (m.load 16 a)).toNat + wordSum conv (m.store (a + 2 + 2 * k) y) (a + 2) n := by
      intro y
      rw [show a + 2 * (k + 1) = a + 2 + 2 * k by omega, wordSum_cons,
        Memory.load_store_of_disjoint m y (.inl (show a + 16 / 8 ≤ a + 2 + 2 * k by omega))]
    have ih := wordSum_store hconv m x (show 2 * k + 2 ≤ n by omega) (a := a + 2)
    rw [hstore, hstore]
    omega

/-! ## Folding -/

theorem two_le_two_pow16 : 2 ≤ 2 ^ 16 := by omega

theorem two_le_two_pow32 : 2 ≤ 2 ^ 32 := by omega

theorem low_add_high_toNat (s : BitVec 32) :
    ((s &&& 0xffff#32) + (s >>> 16)).toNat = s.toNat % 2 ^ 16 + s.toNat / 2 ^ 16 := by
  have hs := s.isLt
  have hmask : (s &&& 0xffff#32).toNat = s.toNat % 2 ^ 16 := by
    rw [BitVec.toNat_and, show (0xffff#32).toNat = 2 ^ 16 - 1 from rfl, Nat.and_two_pow_sub_one_eq_mod]
  rw [BitVec.toNat_add, hmask, BitVec.toNat_ushiftRight, Nat.shiftRight_eq_div_pow]
  omega

/-- The low 16 bits after both carries are those of the folded sum. -/
theorem addCarries_toNat (s : BitVec 32) : (addCarries s).toNat % 2 ^ 16 = fold 16 s.toNat := by
  have hs := s.isLt
  unfold addCarries
  simp only
  rw [BitVec.toNat_add, BitVec.toNat_ushiftRight, Nat.shiftRight_eq_div_pow, low_add_high_toNat,
    ← fold_carry two_le_two_pow16 s.toNat]
  have hsum : s.toNat % 2 ^ 16 + s.toNat / 2 ^ 16 ≤ 131070 := by omega
  generalize s.toNat % 2 ^ 16 + s.toNat / 2 ^ 16 = x at hsum
  by_cases hx : x < 2 ^ 16
  · rw [fold_of_lt two_le_two_pow16 hx]
    omega
  · have hfold : fold 16 x = x - 65535 :=
      fold_unique two_le_two_pow16 (by omega) ⟨by omega, by omega⟩ (by unfold Nat.ModEq; omega)
    rw [hfold]
    omega

theorem complement_toNat (s : BitVec 32) : ((~~~s).setWidth 16 : BitVec 16).toNat = 2 ^ 16 - 1 - s.toNat % 2 ^ 16 := by
  have hs := s.isLt
  rw [BitVec.toNat_setWidth, BitVec.toNat_not]
  omega

/-- Two rounds are enough for the loop: the sum is folded. -/
theorem foldCarries_toNat (s : BitVec 32) : (foldCarries 2 s).toNat = fold 16 s.toNat := by
  have hs := s.isLt
  have hhigh : ∀ x : BitVec 32, x >>> 16 ≠ 0 ↔ 2 ^ 16 ≤ x.toNat := by
    intro x
    rw [Ne, ← BitVec.toNat_inj, BitVec.toNat_ushiftRight, Nat.shiftRight_eq_div_pow,
      show (0 : BitVec 32).toNat = 0 from rfl]
    omega
  unfold foldCarries foldCarries foldCarries
  simp only [hhigh, low_add_high_toNat]
  unfold fold
  split_ifs <;> (try simp only [low_add_high_toNat]) <;> omega

theorem addCarry_toNat (c x : BitVec 32) : (addCarry c x).toNat = fold 32 (c.toNat + x.toNat) := by
  have hc := c.isLt
  have hx := x.isLt
  rw [← add_eq_fold two_le_two_pow32 hc hx]
  unfold addCarry OnesComplement.add
  simp only [BitVec.lt_def, BitVec.toNat_add]
  split_ifs <;> simp <;> omega

/-! ## What the functions compute -/

theorem load16_toNat (m : Memory) (a : Nat) : (m.load 16 a).toNat = (m a).toNat + 256 * (m (a + 1)).toNat := by
  have h0 := (m a).isLt
  have h1 := (m (a + 1)).isLt
  simp only [Memory.load, BitVec.toNat_ofNat, Nat.reduceDiv, Memory.loadLE]
  omega

theorem load32_toNat (m : Memory) (a : Nat) :
    (m.load 32 a).toNat = (m.load 16 a).toNat + 65536 * (m.load 16 (a + 2)).toNat := by
  have h := (m.load 16 a).isLt
  have h' := (m.load 16 (a + 2)).isLt
  rw [load16_toNat] at h h'
  rw [load16_toNat, load16_toNat]
  simp only [Memory.load, BitVec.toNat_ofNat, Nat.reduceDiv, Memory.loadLE, Nat.add_assoc, Nat.reduceAdd] at h' ⊢
  omega

/-- The two words of an address in host order. -/
theorem words_of_load32 (m : Memory) (a : Nat) :
    ((m.load 32 a &&& 0xffff#32) + (m.load 32 a >>> 16)).toNat = hostSum m a 4 := by
  have h0 := (m.load 16 a).isLt
  rw [low_add_high_toNat, load32_toNat, hostSum, wordSum_cons, wordSum_cons]
  simp only [wordSum, hostWords, List.map_nil, List.sum_nil, id]
  omega

/-- An address as the host reads it after `ntohl`: its two words in network order. -/
theorem ntohl_load32 (m : Memory) (a : Nat) :
    (ntohl (m.load 32 a)).toNat = 65536 * (ntohs (m.load 16 a)).toNat + (ntohs (m.load 16 (a + 2))).toNat := by
  have h := (m.load 16 a).isLt
  have h' := (m.load 16 (a + 2)).isLt
  rw [ntohl_toNat, ntohs_toNat, ntohs_toNat, load32_toNat]
  omega

theorem inCksum_toNat (m : Memory) (a : Nat) {len : Nat} (hlen : len ≤ 2 ^ 16) :
    (inCksum m a len).toNat = 2 ^ 16 - 1 - fold 16 (hostSum m a len) := by
  have hle := wordSum_le id m a len
  rw [inCksum, complement_toNat, addCarries_toNat, sumWords_toNat]
  simp only [Int.toNat_natCast, hostSum]
  rw [show (0 : BitVec 32).toNat = 0 from rfl, Nat.zero_add, Nat.mod_eq_of_lt (by omega)]

theorem inCksumPseudohdrRaw_toNat (csum : BitVec 16) (m : Memory) (a b : Nat) (proto : Byte) (len : Nat) :
    (inCksumPseudohdrRaw csum (m.load 32 a) (m.load 32 b) proto len).toNat =
      2 ^ 16 - 1 - fold 16 (2 ^ 16 - 1 - csum.toNat + hostSum m a 4 + hostSum m b 4 +
        ((htons (BitVec.ofNat 16 len)).toNat + (htons (proto.setWidth 16)).toNat)) := by
  have hcsum := csum.isLt
  have ha := wordSum_le id m a 4
  have hb := wordSum_le id m b 4
  have hl := (htons (BitVec.ofNat 16 len)).isLt
  have hp := (htons (proto.setWidth 16)).isLt
  unfold inCksumPseudohdrRaw
  simp only
  rw [complement_toNat, addCarries_toNat, BitVec.ofInt_natCast]
  congr 2
  have hfields :
    ((htons (BitVec.ofNat 16 len)).setWidth 32 + (htons (proto.setWidth 16)).setWidth 32 : BitVec 32).toNat =
      (htons (BitVec.ofNat 16 len)).toNat + (htons (proto.setWidth 16)).toNat := by
    rw [BitVec.toNat_add, BitVec.toNat_setWidth, BitVec.toNat_setWidth]
    omega
  rw [BitVec.toNat_add, BitVec.toNat_add, BitVec.toNat_add, words_of_load32, words_of_load32, hfields,
    BitVec.toNat_setWidth, BitVec.toNat_not]
  unfold hostSum
  omega

/-- The sum of the 32-bit words of both addresses. -/
def addressWords (m : Memory) (saddr daddr : Nat) : Nat :=
  ((List.range 4).map fun i => (ntohl (m.load 32 (saddr + 4 * i))).toNat).sum +
    ((List.range 4).map fun i => (ntohl (m.load 32 (daddr + 4 * i))).toNat).sum

/-- `in6_fast_cksum` folds the sum of the address words at 32 bits. -/
theorem addressSum_toNat (m : Memory) (saddr daddr : Nat) :
    (addressSum m saddr daddr).toNat = fold 32 (addressWords m saddr daddr) := by
  have hfold : ∀ (f : Nat → BitVec 32) (is : List Nat) (s : BitVec 32) (t : Nat), s.toNat = fold 32 t →
      (is.foldl (fun csum i => addCarry csum (f i)) s).toNat = fold 32 (t + (is.map fun i => (f i).toNat).sum) := by
    intro f is
    induction is with
    | nil =>
      intro s t h
      rw [List.foldl_nil, List.map_nil, List.sum_nil, h, Nat.add_zero]
    | cons i is ih =>
      intro s t h
      rw [List.foldl_cons, ih _ (t + (f i).toNat) (by rw [addCarry_toNat, h, fold_fold_add two_le_two_pow32]),
        List.map_cons, List.sum_cons, Nat.add_assoc]
  have hzero : (0 : BitVec 32).toNat = fold 32 0 := by rw [fold_zero]; rfl
  have hsrc := hfold (fun i => ntohl (m.load 32 (saddr + 4 * i))) (List.range 4) 0 0 hzero
  rw [Nat.zero_add] at hsrc
  unfold addressSum
  simp only
  exact hfold (fun i => ntohl (m.load 32 (daddr + 4 * i))) (List.range 4) _ _ hsrc

theorem netSum_address (m : Memory) (a : Nat) :
    netSum m a 16 ≡ ((List.range 4).map fun i => (ntohl (m.load 32 (a + 4 * i))).toNat).sum [MOD 2 ^ 16 - 1] := by
  simp only [List.range, List.range.loop, List.map_cons, List.map_nil, List.sum_cons, List.sum_nil, ntohl_load32]
  simp only [netSum, wordSum, hostWords, List.map_cons, List.map_nil, List.sum_cons, List.sum_nil, Nat.add_assoc,
    Nat.reduceAdd, Nat.reduceMul, Nat.add_zero]
  unfold Nat.ModEq
  omega

theorem addressWords_modEq (m : Memory) (saddr daddr : Nat) :
    fold 32 (addressWords m saddr daddr) ≡ netSum m saddr 16 + netSum m daddr 16 [MOD 2 ^ 16 - 1] := by
  have hdvd : 2 ^ 16 - 1 ∣ 2 ^ 32 - 1 := by decide
  exact ((fold_modEq 32 _).of_dvd hdvd).trans ((netSum_address m saddr).add (netSum_address m daddr)).symm

/-- What `in6_fast_cksum` adds up, before the accumulator loses its carries. -/
def in6Total (m : Memory) (saddr daddr : Nat) (proto : Byte) (addr len : Nat) : Nat :=
  fold 32 (addressWords m saddr daddr) + len + proto.toNat + netSum m addr len

theorem in6FastCksum_toNat (m : Memory) (saddr daddr : Nat) (len : BitVec 16) (proto : Byte) (addr : Nat) :
    (in6FastCksum m saddr daddr len proto 0 addr len).toNat =
      2 ^ 16 - 1 - fold 16 (in6Total m saddr daddr proto addr (ntohs len).toNat % 2 ^ 32) := by
  have hlen := (ntohs len).isLt
  have hproto := proto.isLt
  have hzero : (ntohs 0).setWidth 32 = 0#32 := by decide
  unfold in6FastCksum
  simp only [hzero, BitVec.sub_zero]
  rw [complement_toNat, foldCarries_toNat, Nat.mod_eq_of_lt (fold_lt two_le_two_pow16 _), sumWords_toNat,
    BitVec.toNat_add, BitVec.toNat_add, addressSum_toNat, BitVec.toNat_setWidth, BitVec.toNat_setWidth,
    in6Total, netSum]
  congr 2
  omega

/-! ## Valid checksums -/

/-- The one's complement sum of the pseudo-header (source, destination, protocol 6 and length;
the words of it that are zero are left out) and of the TCP segment is all ones. -/
def ValidTcpChecksum (m : Memory) (src dst n tcp len : Nat) : Prop :=
  OnesComplement.sum 16 (netWords m src n ++ netWords m dst n ++ [6, len] ++ netWords m tcp len) = 0xffff

instance (m : Memory) (src dst n tcp len : Nat) : Decidable (ValidTcpChecksum m src dst n tcp len) :=
  inferInstanceAs (Decidable (_ = _))

/-- The same sum with any protocol in the pseudo-header. -/
def ValidTransportChecksum (proto : Nat) (m : Memory) (src dst n seg len : Nat) : Prop :=
  OnesComplement.sum 16 (netWords m src n ++ netWords m dst n ++ [proto, len] ++ netWords m seg len) = 0xffff

/-- The one's complement sum of a header is all ones. -/
def ValidHeaderChecksum (m : Memory) (iph len : Nat) : Prop := OnesComplement.sum 16 (netWords m iph len) = 0xffff

theorem lt_of_mem_netWords {m : Memory} {a n x : Nat} (hx : x ∈ netWords m a n) : x < 2 ^ 16 := by
  obtain ⟨w, -, rfl⟩ := List.mem_map.1 hx
  exact (ntohs w).isLt

theorem ones_eq : (0xffff : Nat) = 2 ^ 16 - 1 := rfl

theorem validTransportChecksum_iff {m : Memory} {proto src dst n seg len : Nat} (hproto : 0 < proto)
    (hlt : proto < 2 ^ 16) (hlen : len < 2 ^ 16) : ValidTransportChecksum proto m src dst n seg len ↔
      netSum m src n + netSum m dst n + (proto + len) + netSum m seg len ≡ 0 [MOD 2 ^ 16 - 1] := by
  have hall : ∀ x ∈ netWords m src n ++ netWords m dst n ++ [proto, len] ++ netWords m seg len, x < 2 ^ 16 := by
    intro x hx
    simp only [List.mem_append, List.mem_cons, List.not_mem_nil, or_false] at hx
    rcases hx with ((hx | hx) | rfl | rfl) | hx
    · exact lt_of_mem_netWords hx
    · exact lt_of_mem_netWords hx
    · exact hlt
    · exact hlen
    · exact lt_of_mem_netWords hx
  have hsum : (netWords m src n ++ netWords m dst n ++ [proto, len] ++ netWords m seg len).sum =
      netSum m src n + netSum m dst n + (proto + len) + netSum m seg len := by
    simp only [List.sum_append, List.sum_cons, List.sum_nil]
    rfl
  rw [ValidTransportChecksum, sum_eq_fold two_le_two_pow16 hall, ones_eq, fold_eq_ones_iff two_le_two_pow16, hsum]
  exact and_iff_right (by omega)

theorem validTcpChecksum_iff {m : Memory} {src dst n tcp len : Nat} (hlen : len < 2 ^ 16) :
    ValidTcpChecksum m src dst n tcp len ↔
      netSum m src n + netSum m dst n + (6 + len) + netSum m tcp len ≡ 0 [MOD 2 ^ 16 - 1] :=
  validTransportChecksum_iff (by omega) (by omega) hlen

theorem validHeaderChecksum_iff {m : Memory} {iph len : Nat} :
    ValidHeaderChecksum m iph len ↔ 0 < netSum m iph len ∧ netSum m iph len ≡ 0 [MOD 2 ^ 16 - 1] := by
  rw [ValidHeaderChecksum, sum_eq_fold two_le_two_pow16 fun x hx => lt_of_mem_netWords hx, ones_eq,
    fold_eq_ones_iff two_le_two_pow16]
  rfl

/-! ## Checksums stored in what they sum -/

section Stored

variable {m : Memory} {seg len k : Nat}

/-- A word stored in a segment where there was zero. -/
theorem wordSum_checksum {conv : BitVec 16 → BitVec 16} (hconv : conv 0 = 0) (hk : 2 * k + 2 ≤ len) (c : BitVec 16)
    (hzero : m = m.store (seg + 2 * k) (0 : BitVec 16)) :
    wordSum conv (m.store (seg + 2 * k) c) seg len = wordSum conv m seg len + (conv c).toNat := by
  conv_rhs => rw [hzero]
  exact wordSum_store hconv m c hk

/-- The length and the protocol as the host reads them in the pseudo-header. -/
theorem add_htons_modEq (proto : Byte) (hlen : len < 2 ^ 16) : proto.toNat + len ≡
    256 * ((htons (BitVec.ofNat 16 len)).toNat + (htons (proto.setWidth 16)).toNat) [MOD 2 ^ 16 - 1] := by
  have hl := ntohs_modEq (htons (BitVec.ofNat 16 len))
  rw [ntohs_htons, BitVec.toNat_ofNat, Nat.mod_eq_of_lt hlen] at hl
  have hp := ntohs_modEq (htons (proto.setWidth 16))
  rw [ntohs_htons, BitVec.toNat_setWidth, Nat.mod_eq_of_lt (by omega)] at hp
  have h := hl.add hp
  rw [← Nat.mul_add] at h
  rwa [Nat.add_comm proto.toNat]

/-- A header with its checksum stored where there was zero sums to all ones. -/
theorem validHeaderChecksum_inCksum (hzero : m = m.store (seg + 2 * k) (0 : BitVec 16)) (hk : 2 * k + 2 ≤ len)
    (hlen : len ≤ 2 ^ 16) : ValidHeaderChecksum (m.store (seg + 2 * k) (inCksum m seg len)) seg len := by
  have hc := inCksum_toNat m seg hlen
  generalize inCksum m seg len = c at hc ⊢
  have hnet := netSum_modEq (m.store (seg + 2 * k) c) seg len
  have hhost : hostSum (m.store (seg + 2 * k) c) seg len = hostSum m seg len + c.toNat :=
    wordSum_checksum rfl hk c hzero
  have hsum : netSum (m.store (seg + 2 * k) c) seg len = netSum m seg len + (ntohs c).toNat :=
    wordSum_checksum rfl hk c hzero
  have hfold := fold_modEq 16 (hostSum m seg len)
  have hfoldlt := fold_lt two_le_two_pow16 (hostSum m seg len)
  rw [validHeaderChecksum_iff]
  constructor
  · -- all words zero makes the checksum all ones
    by_contra hpos
    have hzeroSum : netSum m seg len = 0 := by omega
    have hcnet := ntohs_toNat c
    have hclt := c.isLt
    have hhostzero : hostSum m seg len = 0 := hostSum_eq_zero hzeroSum
    rw [hhostzero, fold_zero] at hc
    omega
  · refine hnet.trans (Nat.ModEq.mul_left 256 (b := 0) ?_)
    rw [hhost]
    unfold Nat.ModEq at *
    omega

/-- The checksum of the IPv4 functions is valid when the destination it was computed for sums to
that of the header. -/
theorem validTransportChecksum_inCksum {proto : Byte} (hpos : 0 < proto.toNat)
    (hzero : m = m.store (seg + 2 * k) (0 : BitVec 16)) (hseg : 20 ≤ seg) (hk : 2 * k + 2 ≤ len)
    (hlen : len < 2 ^ 16) (hproto : ipP m 0 = proto) :
    ValidTransportChecksum proto.toNat (m.store (seg + 2 * k) (inCksumPseudohdr (inCksum m seg len) m 0 len))
        12 16 4 seg len ↔
      hostSum m (pseudoDst m 0) 4 ≡ hostSum m 16 4 [MOD 2 ^ 16 - 1] := by
  have hc := inCksumPseudohdrRaw_toNat (inCksum m seg len) m 12 (pseudoDst m 0) (ipP m 0) len
  rw [inCksum_toNat m seg (by omega), hproto] at hc
  generalize hT : 2 ^ 16 - 1 - (2 ^ 16 - 1 - fold 16 (hostSum m seg len)) + hostSum m 12 4 +
    hostSum m (pseudoDst m 0) 4 + ((htons (BitVec.ofNat 16 len)).toNat + (htons (proto.setWidth 16)).toNat) = T at hc
  have hdef : inCksumPseudohdr (inCksum m seg len) m 0 len =
      inCksumPseudohdrRaw (inCksum m seg len) (m.load 32 12) (m.load 32 (pseudoDst m 0)) proto len := by
    rw [inCksumPseudohdr, hproto]
  rw [hdef]
  generalize inCksumPseudohdrRaw (inCksum m seg len) (m.load 32 12) (m.load 32 (pseudoDst m 0)) proto len = c at hc ⊢
  have hfold := fold_modEq 16 T
  have hfoldlt := fold_lt two_le_two_pow16 T
  have hsegfold := fold_modEq 16 (hostSum m seg len)
  have hseglt := fold_lt two_le_two_pow16 (hostSum m seg len)
  have hsrc : netSum (m.store (seg + 2 * k) c) 12 4 = netSum m 12 4 := wordSum_store_of_disjoint _ m c (.inl (by omega))
  have hdst : netSum (m.store (seg + 2 * k) c) 16 4 = netSum m 16 4 := wordSum_store_of_disjoint _ m c (.inl (by omega))
  have hsum : hostSum (m.store (seg + 2 * k) c) seg len = hostSum m seg len + c.toNat := wordSum_checksum rfl hk c hzero
  have hnet : netSum m 12 4 + netSum m 16 4 + (proto.toNat + len) + netSum (m.store (seg + 2 * k) c) seg len ≡
      256 * (hostSum m 12 4 + hostSum m 16 4 + ((htons (BitVec.ofNat 16 len)).toNat +
        (htons (proto.setWidth 16)).toNat) + (hostSum m seg len + c.toNat)) [MOD 2 ^ 16 - 1] := by
    rw [← hsum, Nat.mul_add, Nat.mul_add, Nat.mul_add]
    exact (((netSum_modEq m 12 4).add (netSum_modEq m 16 4)).add (add_htons_modEq proto hlen)).add
      (netSum_modEq (m.store (seg + 2 * k) c) seg len)
  rw [validTransportChecksum_iff hpos (by omega) hlen, hsrc, hdst]
  constructor
  · intro h
    have hcancel : hostSum m 12 4 + hostSum m 16 4 + ((htons (BitVec.ofNat 16 len)).toNat +
        (htons (proto.setWidth 16)).toNat) + (hostSum m seg len + c.toNat) ≡ 0 [MOD 2 ^ 16 - 1] :=
      Nat.ModEq.cancel_left_of_coprime (c := 256) (by decide) (hnet.symm.trans h)
    unfold Nat.ModEq at *
    omega
  · intro h
    refine hnet.trans (Nat.ModEq.mul_left 256 (b := 0) ?_)
    unfold Nat.ModEq at *
    omega

end Stored

end Embark
