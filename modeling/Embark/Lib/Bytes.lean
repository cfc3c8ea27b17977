/-
Byte-addressed memory with little-endian words, as packet buffers are accessed on the hosts the
elements run on. A load after a store sees the stored word at its own address and the old memory
wherever the two do not overlap.
-/
import Mathlib.Data.BitVec
import Mathlib.Tactic.Ring

namespace Embark

abbrev Byte := BitVec 8

/-- The bytes at every address. -/
abbrev Memory := Nat → Byte

namespace Memory

/-- The number in the `n` bytes from `a` on, the least significant byte first. -/
def loadLE (m : Memory) (a : Nat) : Nat → Nat
  | 0 => 0
  | n + 1 => (m a).toNat + 256 * loadLE m (a + 1) n

/-- The memory after `n` bytes of `x` are written from `a` on. -/
def storeLE (m : Memory) (a n x : Nat) : Memory := fun i =>
  if a ≤ i ∧ i < a + n then BitVec.ofNat 8 (x / 256 ^ (i - a)) else m i

/-- A word of `w` bits in memory. -/
def load (m : Memory) (w a : Nat) : BitVec w := BitVec.ofNat w (m.loadLE a (w / 8))

/-- `memcpy` of a word to memory. -/
def store {w : Nat} (m : Memory) (a : Nat) (x : BitVec w) : Memory := m.storeLE a (w / 8) x.toNat

/-- The `n` bytes from `a` on. -/
def slice (m : Memory) (a n : Nat) : List Byte := (List.range n).map fun i => m (a + i)

/-! ## Numbers -/

theorem loadLE_congr {m m' : Memory} : ∀ {a n : Nat}, (∀ i, a ≤ i → i < a + n → m i = m' i) →
    m.loadLE a n = m'.loadLE a n
  | _, 0, _ => rfl
  | a, n + 1, h => by
    rw [loadLE, loadLE, h a le_rfl (by omega), loadLE_congr fun i h1 h2 => h i (by omega) (by omega)]

/-- A load past the start of a store reads the digits of the number from there on. -/
theorem loadLE_storeLE_from (m : Memory) {a n x : Nat} : ∀ {k j : Nat}, j + k = n →
    (m.storeLE a n x).loadLE (a + j) k = x / 256 ^ j % 256 ^ k
  | 0, j, _ => by rw [loadLE, Nat.pow_zero, Nat.mod_one]
  | k + 1, j, h => by
    have hhead : ((m.storeLE a n x) (a + j)).toNat = x / 256 ^ j % 256 := by
      unfold storeLE
      rw [if_pos ⟨by omega, by omega⟩, BitVec.toNat_ofNat, Nat.add_sub_cancel_left]
    have htail := loadLE_storeLE_from m (a := a) (n := n) (x := x) (k := k) (j := j + 1) (by omega)
    rw [loadLE, hhead, Nat.add_assoc, htail, Nat.pow_succ, ← Nat.div_div_eq_div_mul, Nat.pow_succ', Nat.mod_mul]

theorem loadLE_storeLE (m : Memory) (a n x : Nat) :
    (m.storeLE a n x).loadLE a n = x % 256 ^ n := by
  have h := loadLE_storeLE_from m (a := a) (n := n) (x := x) (k := n) (j := 0) (by omega)
  rwa [Nat.add_zero, Nat.pow_zero, Nat.div_one] at h

/-- A store leaves the bytes outside its range as they were. -/
theorem storeLE_of_disjoint (m : Memory) {a n x i : Nat} (h : i < a ∨ a + n ≤ i) :
    (m.storeLE a n x) i = m i := if_neg (by omega)

/-! ## Words -/

section Words

variable {w v : Nat}

theorem two_pow_eq (hw : 8 ∣ w) : 256 ^ (w / 8) = 2 ^ w := by
  obtain ⟨k, rfl⟩ := hw
  rw [Nat.mul_div_cancel_left k (by decide), show 256 = 2 ^ 8 from rfl, ← Nat.pow_mul]

theorem load_store (m : Memory) (hw : 8 ∣ w) (a : Nat) (x : BitVec w) : (m.store a x).load w a = x := by
  apply BitVec.eq_of_toNat_eq
  rw [load, store, loadLE_storeLE, two_pow_eq hw, BitVec.toNat_ofNat, Nat.mod_mod, Nat.mod_eq_of_lt x.isLt]

theorem load_store_of_disjoint (m : Memory) {a b : Nat} (x : BitVec v)
    (h : a + w / 8 ≤ b ∨ b + v / 8 ≤ a) : (m.store b x).load w a = m.load w a := by
  unfold load store
  congr 1
  exact loadLE_congr fun i h1 h2 => storeLE_of_disjoint m (by omega)

/-- A second store of a word hides the first. -/
theorem store_store (m : Memory) (a : Nat) (x y : BitVec w) : (m.store a x).store a y = m.store a y := by
  funext i
  unfold store storeLE
  split_ifs <;> rfl

theorem store_of_disjoint (m : Memory) {a i : Nat} (x : BitVec w) (h : i < a ∨ a + w / 8 ≤ i) :
    (m.store a x) i = m i := storeLE_of_disjoint m h

end Words

/-! ## Byte strings -/

@[simp] theorem length_slice (m : Memory) (a n : Nat) : (m.slice a n).length = n := by simp [slice]

/-- `memcpy` of a byte string to memory. -/
def writeBytes (m : Memory) (a : Nat) (bs : List Byte) : Memory := fun i =>
  if a ≤ i ∧ i < a + bs.length then bs[i - a]?.getD 0 else m i

/-- A slice that starts where a byte string was written: the string, then the old bytes. -/
theorem slice_writeBytes (m : Memory) {a n : Nat} {bs : List Byte} (h : bs.length ≤ n) :
    (m.writeBytes a bs).slice a n = bs ++ (m.slice a n).drop bs.length := by
  apply List.ext_getElem
  · simp; omega
  · intro i h1 h2
    rw [length_slice] at h1
    have hread : ((m.writeBytes a bs).slice a n)[i] = m.writeBytes a bs (a + i) := by simp [slice]
    rw [hread]
    unfold writeBytes
    by_cases hi : i < bs.length
    · rw [if_pos ⟨by omega, by omega⟩, List.getElem_append_left hi, Nat.add_sub_cancel_left,
        List.getElem?_eq_getElem hi, Option.getD_some]
    · rw [if_neg (by omega), List.getElem_append_right (by omega), List.getElem_drop]
      simp only [slice, List.getElem_map, List.getElem_range]
      congr 1
      omega

theorem writeBytes_of_disjoint (m : Memory) {a i : Nat} {bs : List Byte} (h : i < a ∨ a + bs.length ≤ i) :
    m.writeBytes a bs i = m i := if_neg (by omega)

theorem slice_add (m : Memory) (a n k : Nat) : m.slice a (n + k) = m.slice a n ++ m.slice (a + n) k := by
  unfold slice
  rw [List.range_add, List.map_append, List.map_map]
  congr 1
  exact List.map_congr_left fun i _ => congrArg m (Nat.add_assoc a n i).symm

/-- A byte string written behind the first `n` bytes. -/
theorem slice_writeBytes_append (m : Memory) (n : Nat) (bs : List Byte) :
    (m.writeBytes n bs).slice 0 (n + bs.length) = m.slice 0 n ++ bs := by
  have hfirst : (m.writeBytes n bs).slice 0 n = m.slice 0 n := by
    refine List.map_congr_left fun i hi => writeBytes_of_disjoint m (.inl ?_)
    rw [List.mem_range] at hi
    omega
  rw [slice_add, hfirst, Nat.zero_add, slice_writeBytes m le_rfl, List.drop_of_length_le (by rw [length_slice]),
    List.append_nil]

/-- Before the end of the first of two byte strings written in a row, memory is as that one leaves it. -/
theorem writeBytes_append_left (m : Memory) {a i : Nat} {bs cs : List Byte} (h : i < a + bs.length) :
    m.writeBytes a (bs ++ cs) i = m.writeBytes a bs i := by
  unfold writeBytes
  by_cases ha : a ≤ i
  · rw [if_pos ⟨ha, by rw [List.length_append]; omega⟩, if_pos ⟨ha, h⟩, List.getElem?_append_left (by omega)]
  · rw [if_neg (by omega), if_neg (by omega)]

/-- The memory holds the byte string `bs` at `a`. -/
def Holds (m : Memory) : Nat → List Byte → Prop
  | _, [] => True
  | a, b :: bs => m a = b ∧ Holds m (a + 1) bs

theorem holds_append {m : Memory} : ∀ {a : Nat} {bs cs : List Byte},
    m.Holds a (bs ++ cs) ↔ m.Holds a bs ∧ m.Holds (a + bs.length) cs
  | _, [], _ => by simp [Holds]
  | a, b :: bs, cs => by
    have hpos : a + 1 + bs.length = a + (bs.length + 1) := by omega
    rw [List.cons_append, Holds, Holds, holds_append, List.length_cons, hpos, and_assoc]

theorem slice_succ (m : Memory) (a n : Nat) : m.slice a (n + 1) = m a :: m.slice (a + 1) n := by
  unfold slice
  rw [List.range_succ_eq_map, List.map_cons, List.map_map, Nat.add_zero]
  congr 1
  exact List.map_congr_left fun i _ => congrArg m (by simp only [Nat.succ_eq_add_one]; omega)

theorem Holds.slice_eq {m : Memory} : ∀ {a : Nat} {bs : List Byte}, m.Holds a bs → m.slice a bs.length = bs
  | _, [], _ => rfl
  | a, b :: bs, h => by rw [List.length_cons, slice_succ, h.1, h.2.slice_eq]

theorem holds_slice (m : Memory) : ∀ a n, m.Holds a (m.slice a n)
  | _, 0 => trivial
  | a, n + 1 => by
    rw [slice_succ]
    exact ⟨rfl, holds_slice m (a + 1) n⟩

/-- Memory holds what was written to it. -/
theorem holds_writeBytes (m : Memory) (a : Nat) (bs : List Byte) : (m.writeBytes a bs).Holds a bs := by
  have h := holds_slice (m.writeBytes a bs) a bs.length
  rwa [slice_writeBytes m le_rfl, List.drop_of_length_le (by rw [length_slice]), List.append_nil] at h

end Memory

/-! ## Little-endian byte strings -/

/-- The `n` bytes of `x`, the least significant first. -/
def toLE : Nat → Nat → List Byte
  | 0, _ => []
  | n + 1, x => BitVec.ofNat 8 x :: toLE n (x / 256)

/-- The number with the given bytes, the least significant first. -/
def ofLE : List Byte → Nat
  | [] => 0
  | b :: bs => b.toNat + 256 * ofLE bs

@[simp] theorem length_toLE : ∀ n x, (toLE n x).length = n
  | 0, _ => rfl
  | n + 1, x => by rw [toLE, List.length_cons, length_toLE n]

theorem ofLE_toLE : ∀ n x, ofLE (toLE n x) = x % 256 ^ n
  | 0, x => by rw [toLE, ofLE, Nat.pow_zero, Nat.mod_one]
  | n + 1, x => by
    have hbyte : (BitVec.ofNat 8 x).toNat = x % 256 := BitVec.toNat_ofNat x 8
    rw [toLE, ofLE, ofLE_toLE n, hbyte, Nat.pow_succ', Nat.mod_mul]

/-- Byte strings of one length compare as numbers when they compare byte by byte. -/
theorem ofLE_le {xs ys : List Byte} (h : List.Forall₂ (fun x y => x.toNat ≤ y.toNat) xs ys) :
    ofLE xs ≤ ofLE ys := by
  induction h with
  | nil => exact le_rfl
  | cons hxy _ ih =>
    rw [ofLE, ofLE]
    omega

end Embark
