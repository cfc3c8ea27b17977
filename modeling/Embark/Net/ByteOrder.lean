/-
Byte order: `htons`, `htonl` and their inverses on a little-endian host, and the 128-bit
conversions of `ope_tree.h`, which swap the four 32-bit words and the bytes of each.
-/
import Embark.Ope.Tree

namespace Embark

/-- `htons`; `ntohs` is the same exchange of bytes. -/
def htons (x : BitVec 16) : BitVec 16 := x.extractLsb' 0 8 ++ x.extractLsb' 8 8

/-- `htonl`; `ntohl` is the same exchange of bytes. -/
def htonl (x : BitVec 32) : BitVec 32 :=
  x.extractLsb' 0 8 ++ x.extractLsb' 8 8 ++ x.extractLsb' 16 8 ++ x.extractLsb' 24 8

def ntohs (x : BitVec 16) : BitVec 16 := htons x

def ntohl (x : BitVec 32) : BitVec 32 := htonl x

/-- `hton128`. -/
def hton128 (n : U128) : U128 :=
  let h0 : BitVec 32 := (n &&& 0xffffffff).setWidth 32
  let h1 : BitVec 32 := ((n >>> 32) &&& 0xffffffff).setWidth 32
  let h2 : BitVec 32 := ((n >>> 64) &&& 0xffffffff).setWidth 32
  let h3 : BitVec 32 := ((n >>> 96) &&& 0xffffffff).setWidth 32
  let n0 : U128 := (htonl h0).setWidth 128
  let n1 : U128 := (htonl h1).setWidth 128
  let n2 : U128 := (htonl h2).setWidth 128
  let n3 : U128 := (htonl h3).setWidth 128
  n3 ||| (n2 <<< 32) ||| (n1 <<< 64) ||| (n0 <<< 96)

/-- `ntoh128`. -/
def ntoh128 (n : U128) : U128 :=
  let n0 : BitVec 32 := (n &&& 0xffffffff).setWidth 32
  let n1 : BitVec 32 := ((n >>> 32) &&& 0xffffffff).setWidth 32
  let n2 : BitVec 32 := ((n >>> 64) &&& 0xffffffff).setWidth 32
  let n3 : BitVec 32 := ((n >>> 96) &&& 0xffffffff).setWidth 32
  let h0 : U128 := (ntohl n0).setWidth 128
  let h1 : U128 := (ntohl n1).setWidth 128
  let h2 : U128 := (ntohl n2).setWidth 128
  let h3 : U128 := (ntohl n3).setWidth 128
  h3 ||| (h2 <<< 32) ||| (h1 <<< 64) ||| (h0 <<< 96)

/-! ## The conversions invert each other -/

@[simp] theorem ntohs_htons (x : BitVec 16) : ntohs (htons x) = x := by
  unfold ntohs htons
  apply BitVec.eq_of_getLsbD_eq
  intro i hi
  simp only [BitVec.getLsbD_append, BitVec.getLsbD_extractLsb']
  grind

@[simp] theorem ntohl_htonl (x : BitVec 32) : ntohl (htonl x) = x := by
  unfold ntohl htonl
  apply BitVec.eq_of_getLsbD_eq
  intro i hi
  simp only [BitVec.getLsbD_append, BitVec.getLsbD_extractLsb']
  grind

/-- A 128-bit number is the concatenation of its four words. -/
theorem exists_words (n : U128) : ∃ a b c d : BitVec 32, n = a ++ b ++ c ++ d := by
  refine ⟨n.extractLsb' 96 32, n.extractLsb' 64 32, n.extractLsb' 32 32, n.extractLsb' 0 32, ?_⟩
  apply BitVec.eq_of_getLsbD_eq
  intro i hi
  simp only [BitVec.getLsbD_append, BitVec.getLsbD_extractLsb']
  grind

theorem or_shifts_eq_append (a b c d : BitVec 32) :
    d.setWidth 128 ||| (c.setWidth 128 <<< 32) ||| (b.setWidth 128 <<< 64) ||| (a.setWidth 128 <<< 96) =
      a ++ b ++ c ++ d := by
  apply BitVec.eq_of_getLsbD_eq
  intro i hi
  simp only [BitVec.getLsbD_append, BitVec.getLsbD_or, BitVec.getLsbD_shiftLeft, BitVec.getLsbD_setWidth]
  grind

/-- Masking and narrowing after a shift by `k` reads the 32 bits from `k` on. -/
theorem getLsbD_word (n : U128) (k : Nat) {i : Nat} (hi : i < 32) :
    (((n >>> k) &&& 0xffffffff).setWidth 32 : BitVec 32).getLsbD i = n.getLsbD (k + i) := by
  have hmask : (0xffffffff : U128) = (BitVec.allOnes 32).setWidth 128 := by decide
  rw [hmask, BitVec.getLsbD_setWidth, BitVec.getLsbD_and, BitVec.getLsbD_ushiftRight, BitVec.getLsbD_setWidth,
    BitVec.getLsbD_allOnes]
  grind

theorem hton128_append (a b c d : BitVec 32) :
    hton128 (a ++ b ++ c ++ d) = htonl d ++ htonl c ++ htonl b ++ htonl a := by
  have word : ∀ (k : Nat) (x : BitVec 32), (∀ i < 32, (a ++ b ++ c ++ d : U128).getLsbD (k + i) = x.getLsbD i) →
      ((((a ++ b ++ c ++ d : U128) >>> k) &&& 0xffffffff).setWidth 32 : BitVec 32) = x := fun k x hx =>
    BitVec.eq_of_getLsbD_eq fun i hi => by rw [getLsbD_word _ _ hi, hx i hi]
  have h0 : (((a ++ b ++ c ++ d : U128) &&& 0xffffffff).setWidth 32 : BitVec 32) = d := by
    have := word 0 d fun i hi => by rw [BitVec.getLsbD_append, Nat.zero_add, if_pos hi]
    rwa [BitVec.ushiftRight_zero] at this
  have h1 := word 32 c fun i hi => by simp only [BitVec.getLsbD_append]; grind
  have h2 := word 64 b fun i hi => by simp only [BitVec.getLsbD_append]; grind
  have h3 := word 96 a fun i hi => by simp only [BitVec.getLsbD_append]; grind
  simp only [hton128]
  rw [h0, h1, h2, h3]
  exact or_shifts_eq_append ..

@[simp] theorem ntoh128_hton128 (n : U128) : ntoh128 (hton128 n) = n := by
  obtain ⟨a, b, c, d, rfl⟩ := exists_words n
  have hback : ∀ x : BitVec 32, htonl (htonl x) = x := ntohl_htonl
  rw [hton128_append, show ntoh128 = hton128 from rfl, hton128_append, hback, hback, hback, hback]

end Embark
