/-
The Advanced Encryption Standard: bytes as polynomials over GF(2), words of four bytes and states of
four words; the four transformations of a state with their inverses; the key schedule; the cipher
and its inverse, the one that runs the rounds backwards and the equivalent one that keeps their
order and mixes the round keys instead.
-/
import Mathlib.Data.BitVec
import Mathlib.Data.Finite.Prod
import Mathlib.Data.LawfulXor.Basic

namespace Embark

namespace Aes

/-! ## Bytes -/

/-- Multiplication by `x` modulo `x^8 + x^4 + x^3 + x + 1`. -/
def xtime (a : BitVec 8) : BitVec 8 := if a.msb then a <<< 1 ^^^ 0x1b else a <<< 1

/-- Multiplication by a polynomial, given by its coefficients from the constant term on. -/
def mul : List Bool → BitVec 8 → BitVec 8
  | [], _ => 0
  | true :: c, a => a ^^^ mul c (xtime a)
  | false :: c, a => mul c (xtime a)

def two : List Bool := [false, true]

def three : List Bool := [true, true]

def nine : List Bool := [true, false, false, true]

def eleven : List Bool := [true, true, false, true]

def thirteen : List Bool := [true, false, true, true]

def fourteen : List Bool := [false, true, true, true]

/-- The S-box, sixteen bytes a row. -/
def sboxRows : List (BitVec 128) :=
  [0x637c777bf26b6fc53001672bfed7ab76, 0xca82c97dfa5947f0add4a2af9ca472c0,
   0xb7fd9326363ff7cc34a5e5f171d83115, 0x04c723c31896059a071280e2eb27b275,
   0x09832c1a1b6e5aa0523bd6b329e32f84, 0x53d100ed20fcb15b6acbbe394a4c58cf,
   0xd0efaafb434d338545f9027f503c9fa8, 0x51a3408f929d38f5bcb6da2110fff3d2,
   0xcd0c13ec5f974417c4a77e3d645d1973, 0x60814fdc222a908846eeb814de5e0bdb,
   0xe0323a0a4906245cc2d3ac629195e479, 0xe7c8376d8dd54ea96c56f4ea657aae08,
   0xba78252e1ca6b4c6e8dd741f4bbd8b8a, 0x703eb5664803f60e613557b986c11d9e,
   0xe1f8981169d98e949b1e87e9ce5528df, 0x8ca1890dbfe6426841992d0fb054bb16]

def invSboxRows : List (BitVec 128) :=
  [0x52096ad53036a538bf40a39e81f3d7fb, 0x7ce339829b2fff87348e4344c4dee9cb,
   0x547b9432a6c2233dee4c950b42fac34e, 0x082ea16628d924b2765ba2496d8bd125,
   0x72f8f66486689816d4a45ccc5d65b692, 0x6c704850fdedb9da5e154657a78d9d84,
   0x90d8ab008cbcd30af7e45805b8b34506, 0xd02c1e8fca3f0f02c1afbd0301138a6b,
   0x3a9111414f67dcea97f2cfcef0b4e673, 0x96ac7422e7ad3585e2f937e81c75df6e,
   0x47f11a711d29c5896fb7620eaa18be1b, 0xfc563e4bc6d279209adbc0fe78cd5af4,
   0x1fdda8338807c731b11210592780ec5f, 0x60517fa919b54a0d2de57a9f93c99cef,
   0xa0e03b4dae2af5b0c8ebbb3c83539961, 0x172b047eba77d626e169146355210c7d]

/-- The entry of a table in the row of the high four bits and the column of the low four. -/
def substitute (rows : List (BitVec 128)) (a : BitVec 8) : BitVec 8 :=
  (rows.getD (a.toNat / 16) 0 >>> (8 * (15 - a.toNat % 16))).setWidth 8

def sbox (a : BitVec 8) : BitVec 8 := substitute sboxRows a

def invSbox (a : BitVec 8) : BitVec 8 := substitute invSboxRows a

theorem invSbox_sbox : ∀ a, invSbox (sbox a) = a := by decide +kernel

theorem xor_left_comm {α : Type} [XorOp α] [Zero α] [LawfulXor α] (a b c : α) :
    a ^^^ (b ^^^ c) = b ^^^ (a ^^^ c) := by
  rw [← xor_assoc, LawfulXor.xor_comm a b, xor_assoc]

theorem xtime_xor (a b : BitVec 8) : xtime (a ^^^ b) = xtime a ^^^ xtime b := by
  unfold xtime
  rw [BitVec.msb_xor, BitVec.shiftLeft_xor_distrib]
  cases a.msb with
  | false => cases b.msb <;> simp [BitVec.xor_assoc]
  | true => cases b.msb <;> simp [LawfulXor.xor_comm, xor_left_comm, xor_assoc]

theorem mul_xor (c : List Bool) (a b : BitVec 8) : mul c (a ^^^ b) = mul c a ^^^ mul c b := by
  induction c generalizing a b with
  | nil => exact (xor_zero 0).symm
  | cons bit c ih =>
    cases bit with
    | false => rw [mul, mul, mul, xtime_xor, ih]
    | true =>
      rw [mul, mul, mul, xtime_xor, ih]
      simp only [xor_assoc, xor_left_comm]

/-! ## Words and states -/

/-- Four values in a row: the bytes of a word, or the words of a state. -/
@[ext] structure Four (α : Type) where
  x0 : α
  x1 : α
  x2 : α
  x3 : α
deriving DecidableEq, Repr

namespace Four

variable {α β γ : Type}

def map (f : α → β) (s : Four α) : Four β := ⟨f s.x0, f s.x1, f s.x2, f s.x3⟩

theorem map_map (g : β → γ) (f : α → β) (s : Four α) : (s.map f).map g = s.map (g ∘ f) := rfl

theorem map_eq_self {f : α → α} (h : ∀ a, f a = a) (s : Four α) : s.map f = s := by
  unfold map
  rw [h, h, h, h]

instance [Zero α] : Zero (Four α) := ⟨⟨0, 0, 0, 0⟩⟩

instance [XorOp α] : XorOp (Four α) :=
  ⟨fun s t => ⟨s.x0 ^^^ t.x0, s.x1 ^^^ t.x1, s.x2 ^^^ t.x2, s.x3 ^^^ t.x3⟩⟩

@[simp] theorem xor_x0 [XorOp α] (s t : Four α) : (s ^^^ t).x0 = s.x0 ^^^ t.x0 := rfl
@[simp] theorem xor_x1 [XorOp α] (s t : Four α) : (s ^^^ t).x1 = s.x1 ^^^ t.x1 := rfl
@[simp] theorem xor_x2 [XorOp α] (s t : Four α) : (s ^^^ t).x2 = s.x2 ^^^ t.x2 := rfl
@[simp] theorem xor_x3 [XorOp α] (s t : Four α) : (s ^^^ t).x3 = s.x3 ^^^ t.x3 := rfl

instance [XorOp α] [Zero α] [LawfulXor α] : LawfulXor (Four α) where
  xor_assoc _ _ _ := Four.ext (xor_assoc ..) (xor_assoc ..) (xor_assoc ..) (xor_assoc ..)
  xor_self _ := Four.ext (LawfulXor.xor_self _) (LawfulXor.xor_self _) (LawfulXor.xor_self _) (LawfulXor.xor_self _)
  xor_zero _ := Four.ext (xor_zero _) (xor_zero _) (xor_zero _) (xor_zero _)
  xor_comm _ _ := Four.ext (LawfulXor.xor_comm ..) (LawfulXor.xor_comm ..) (LawfulXor.xor_comm ..)
    (LawfulXor.xor_comm ..)

theorem injective_values : Function.Injective fun (s : Four α) => ((s.x0, s.x1), (s.x2, s.x3)) := by
  rintro ⟨a, b, c, d⟩ ⟨a', b', c', d'⟩ h
  simp only [Prod.mk.injEq] at h
  obtain ⟨⟨rfl, rfl⟩, rfl, rfl⟩ := h
  rfl

instance [Finite α] : Finite (Four α) := Finite.of_injective _ injective_values

theorem map_xor [XorOp α] [XorOp β] {f : α → β} (h : ∀ a b, f (a ^^^ b) = f a ^^^ f b) (s t : Four α) :
    (s ^^^ t).map f = s.map f ^^^ t.map f :=
  Four.ext (h _ _) (h _ _) (h _ _) (h _ _)

end Four

/-- A word, the byte at the lowest address first. -/
abbrev Word := Four (BitVec 8)

/-- A state, by columns. -/
abbrev State := Four Word

instance finiteByte : Finite (BitVec 8) := Finite.of_equiv _ (BitVec.equivFin (m := 8)).symm.toEquiv

/-! ## The transformations -/

def subWord (w : Word) : Word := w.map sbox

def rotWord (w : Word) : Word := ⟨w.x1, w.x2, w.x3, w.x0⟩

def mixColumn (w : Word) : Word where
  x0 := mul two w.x0 ^^^ mul three w.x1 ^^^ w.x2 ^^^ w.x3
  x1 := w.x0 ^^^ mul two w.x1 ^^^ mul three w.x2 ^^^ w.x3
  x2 := w.x0 ^^^ w.x1 ^^^ mul two w.x2 ^^^ mul three w.x3
  x3 := mul three w.x0 ^^^ w.x1 ^^^ w.x2 ^^^ mul two w.x3

def invMixColumn (w : Word) : Word where
  x0 := mul fourteen w.x0 ^^^ mul eleven w.x1 ^^^ mul thirteen w.x2 ^^^ mul nine w.x3
  x1 := mul nine w.x0 ^^^ mul fourteen w.x1 ^^^ mul eleven w.x2 ^^^ mul thirteen w.x3
  x2 := mul thirteen w.x0 ^^^ mul nine w.x1 ^^^ mul fourteen w.x2 ^^^ mul eleven w.x3
  x3 := mul eleven w.x0 ^^^ mul thirteen w.x1 ^^^ mul nine w.x2 ^^^ mul fourteen w.x3

def subBytes (s : State) : State := s.map subWord

def invSubBytes (s : State) : State := s.map fun w => w.map invSbox

def mixColumns (s : State) : State := s.map mixColumn

def invMixColumns (s : State) : State := s.map invMixColumn

/-- Row `r` moves `r` columns to the left. -/
def shiftRows (s : State) : State where
  x0 := ⟨s.x0.x0, s.x1.x1, s.x2.x2, s.x3.x3⟩
  x1 := ⟨s.x1.x0, s.x2.x1, s.x3.x2, s.x0.x3⟩
  x2 := ⟨s.x2.x0, s.x3.x1, s.x0.x2, s.x1.x3⟩
  x3 := ⟨s.x3.x0, s.x0.x1, s.x1.x2, s.x2.x3⟩

/-- Row `r` moves `r` columns to the right. -/
def invShiftRows (s : State) : State where
  x0 := ⟨s.x0.x0, s.x3.x1, s.x2.x2, s.x1.x3⟩
  x1 := ⟨s.x1.x0, s.x0.x1, s.x3.x2, s.x2.x3⟩
  x2 := ⟨s.x2.x0, s.x1.x1, s.x0.x2, s.x3.x3⟩
  x3 := ⟨s.x3.x0, s.x2.x1, s.x1.x2, s.x0.x3⟩

@[simp] theorem invShiftRows_shiftRows (s : State) : invShiftRows (shiftRows s) = s := rfl

@[simp] theorem invSubBytes_subBytes (s : State) : invSubBytes (subBytes s) = s :=
  Four.map_eq_self (fun w => Four.map_eq_self invSbox_sbox w) s

/-- The substitution acts on each byte alone, so it may come before or after the rows move. -/
theorem shiftRows_subBytes (s : State) : shiftRows (subBytes s) = subBytes (shiftRows s) := rfl

theorem invShiftRows_invSubBytes (s : State) : invShiftRows (invSubBytes s) = invSubBytes (invShiftRows s) := rfl

theorem subWord_rotWord (w : Word) : subWord (rotWord w) = rotWord (subWord w) := rfl

theorem mixColumn_xor (v w : Word) : mixColumn (v ^^^ w) = mixColumn v ^^^ mixColumn w := by
  unfold mixColumn
  ext1 <;> simp only [Four.xor_x0, Four.xor_x1, Four.xor_x2, Four.xor_x3, mul_xor] <;> ac_rfl

theorem invMixColumn_xor (v w : Word) : invMixColumn (v ^^^ w) = invMixColumn v ^^^ invMixColumn w := by
  unfold invMixColumn
  ext1 <;> simp only [Four.xor_x0, Four.xor_x1, Four.xor_x2, Four.xor_x3, mul_xor] <;> ac_rfl

/-- The rows of the inverse matrix times a column of the matrix. The products only add powers of `x`,
and every other power cancels. -/
theorem mul_inverse (a : BitVec 8) :
    mul fourteen (mul two a) ^^^ mul eleven a ^^^ mul thirteen a ^^^ mul nine (mul three a) = a ∧
    mul nine (mul two a) ^^^ mul fourteen a ^^^ mul eleven a ^^^ mul thirteen (mul three a) = 0 ∧
    mul thirteen (mul two a) ^^^ mul nine a ^^^ mul fourteen a ^^^ mul eleven (mul three a) = 0 ∧
    mul eleven (mul two a) ^^^ mul thirteen a ^^^ mul nine a ^^^ mul fourteen (mul three a) = 0 := by
  simp only [mul, two, three, nine, eleven, thirteen, fourteen, xtime_xor, xor_zero]
  generalize xtime (xtime (xtime (xtime a))) = a4
  generalize xtime (xtime (xtime a)) = a3
  generalize xtime (xtime a) = a2
  generalize xtime a = a1
  refine ⟨?_, ?_, ?_, ?_⟩ <;>
    simp only [LawfulXor.xor_comm, xor_left_comm, xor_cancel_left, LawfulXor.xor_self, xor_zero]

theorem mul_zero (c : List Bool) : mul c 0 = 0 := by
  have h := mul_xor c 0 0
  rwa [xor_zero, LawfulXor.xor_self] at h

/-- The four words with one byte. -/
theorem invMixColumn_mixColumn_single (a : BitVec 8) :
    invMixColumn (mixColumn ⟨a, 0, 0, 0⟩) = ⟨a, 0, 0, 0⟩ ∧
    invMixColumn (mixColumn ⟨0, a, 0, 0⟩) = ⟨0, a, 0, 0⟩ ∧
    invMixColumn (mixColumn ⟨0, 0, a, 0⟩) = ⟨0, 0, a, 0⟩ ∧
    invMixColumn (mixColumn ⟨0, 0, 0, a⟩) = ⟨0, 0, 0, a⟩ := by
  obtain ⟨h0, h1, h2, h3⟩ := mul_inverse a
  -- the matrix is circulant: each column is the first one turned down by one
  have hturn : ∀ b c d e : BitVec 8, b ^^^ c ^^^ d ^^^ e = c ^^^ d ^^^ e ^^^ b := fun b c d e => by ac_rfl
  simp only [invMixColumn, mixColumn, mul_zero, xor_zero, zero_xor]
  refine ⟨?_, ?_, ?_, ?_⟩
  · rw [h0, h1, h2, h3]
  · rw [hturn, h3, hturn, h0, hturn, h1, hturn, h2]
  · rw [hturn, hturn, h2, hturn, hturn, h3, hturn, hturn, h0, hturn, hturn, h1]
  · rw [hturn, hturn, hturn, h1, hturn, hturn, hturn, h2, hturn, hturn, hturn, h3, hturn, hturn, hturn, h0]

/-- Unmixing undoes mixing for the words of one byte, and both are additive. -/
theorem invMixColumn_mixColumn (w : Word) : invMixColumn (mixColumn w) = w := by
  obtain ⟨a, b, c, d⟩ := w
  have hsum : (⟨a, b, c, d⟩ : Word) = ⟨a, 0, 0, 0⟩ ^^^ ⟨0, b, 0, 0⟩ ^^^ ⟨0, 0, c, 0⟩ ^^^
    ⟨0, 0, 0, d⟩ := by
    ext1 <;> simp
  rw [hsum]
  simp only [mixColumn_xor, invMixColumn_xor, (invMixColumn_mixColumn_single _).1,
    (invMixColumn_mixColumn_single _).2.1, (invMixColumn_mixColumn_single _).2.2.1,
    (invMixColumn_mixColumn_single _).2.2.2]

@[simp] theorem invMixColumns_mixColumns (s : State) : invMixColumns (mixColumns s) = s :=
  Four.map_eq_self invMixColumn_mixColumn s

theorem invMixColumns_xor (s t : State) : invMixColumns (s ^^^ t) = invMixColumns s ^^^ invMixColumns t :=
  Four.map_xor invMixColumn_xor s t

/-! ## The cipher -/

section Cipher

variable (k : ℕ → State)

/-- The state after the first key and `n` full rounds. -/
def fullRounds : ℕ → State → State
  | 0, s => s ^^^ k 0
  | n + 1, s => mixColumns (shiftRows (subBytes (fullRounds n s))) ^^^ k (n + 1)

/-- The cipher with `n + 1` rounds, the last one without mixing. -/
def cipher (n : ℕ) (s : State) : State := shiftRows (subBytes (fullRounds k n s)) ^^^ k (n + 1)

/-- Full rounds undone from the `n`-th on. -/
def undoRounds : ℕ → State → State
  | 0, s => s ^^^ k 0
  | n + 1, s => undoRounds n (invSubBytes (invShiftRows (invMixColumns (s ^^^ k (n + 1)))))

def invCipher (n : ℕ) (s : State) : State := undoRounds k n (invSubBytes (invShiftRows (s ^^^ k (n + 1))))

variable {k}

theorem undoRounds_fullRounds (n : ℕ) (s : State) : undoRounds k n (fullRounds k n s) = s := by
  induction n with
  | zero => exact xor_cancel_right s (k 0)
  | succ n ih =>
    rw [fullRounds, undoRounds, xor_cancel_right, invMixColumns_mixColumns, invShiftRows_shiftRows,
      invSubBytes_subBytes, ih]

theorem invCipher_cipher (n : ℕ) (s : State) : invCipher k n (cipher k n s) = s := by
  unfold invCipher cipher
  rw [xor_cancel_right, invShiftRows_shiftRows, invSubBytes_subBytes, undoRounds_fullRounds]

/-- A cipher on finitely many states is a permutation of them. -/
theorem cipher_invCipher (n : ℕ) (s : State) : cipher k n (invCipher k n s) = s := by
  have hleft : Function.LeftInverse (invCipher k n) (cipher k n) := invCipher_cipher n
  have hinj := hleft.injective
  obtain ⟨t, rfl⟩ := Finite.injective_iff_surjective.1 hinj s
  rw [invCipher_cipher]

end Cipher

/-! ## The equivalent inverse cipher -/

section Equivalent

/-- Full rounds of the equivalent inverse cipher, in the order of the cipher. -/
def invRounds (d : ℕ → State) : ℕ → State → State
  | 0, s => s ^^^ d 0
  | n + 1, s => invMixColumns (invShiftRows (invSubBytes (invRounds d n s))) ^^^ d (n + 1)

def eqInvCipher (d : ℕ → State) (n : ℕ) (s : State) : State :=
  invShiftRows (invSubBytes (invRounds d n s)) ^^^ d (n + 1)

/-- The keys in reverse order, mixed but for the first and the last. -/
def DecryptionKeys (k d : ℕ → State) (n : ℕ) : Prop :=
  d 0 = k (n + 1) ∧ d (n + 1) = k 0 ∧ ∀ i < n, d (i + 1) = invMixColumns (k (n - i))

variable {k d : ℕ → State} {n : ℕ}

/-- Both inverse ciphers agree: mixing is additive, so it commutes with adding a key. -/
theorem eqInvCipher_eq (h : DecryptionKeys k d n) (s : State) : eqInvCipher d n s = invCipher k n s := by
  obtain ⟨hfirst, hlast, hmid⟩ := h
  -- after `i` rounds of one, `n - i` rounds of the other are left
  have hround : ∀ i ≤ n, undoRounds k (n - i) (invShiftRows (invSubBytes (invRounds d i s))) =
      undoRounds k n (invSubBytes (invShiftRows (s ^^^ k (n + 1)))) := by
    intro i hi
    induction i with
    | zero =>
      rw [invRounds, hfirst, invShiftRows_invSubBytes, Nat.sub_zero]
    | succ i ih =>
      obtain ⟨j, hj⟩ : ∃ j, n - i = j + 1 := ⟨n - i - 1, by omega⟩
      rw [← ih (by omega), hj, undoRounds, invRounds, hmid i (by omega), hj, ← invMixColumns_xor,
        invShiftRows_invSubBytes, show n - (i + 1) = j by omega]
  have hn := hround n le_rfl
  rw [Nat.sub_self, undoRounds] at hn
  unfold eqInvCipher invCipher
  rw [hlast, hn]

end Equivalent

/-! ## The key schedule -/

section Schedule

/-- The first byte of the `i`-th round constant. -/
def rcon (i : ℕ) : BitVec 8 := xtime^[i - 1] 1

/-- What is added to the word `nk` places back, from the word before. -/
def temp (nk i : ℕ) (w : Word) : Word :=
  if i % nk = 0 then subWord (rotWord w) ^^^ ⟨rcon (i / nk), 0, 0, 0⟩
  else if 6 < nk ∧ i % nk = 4 then subWord w
  else w

/-- The first `n` words of the expanded key, the last one first. -/
def words (nk : ℕ) (key : ℕ → Word) : ℕ → List Word
  | 0 => []
  | n + 1 =>
    let ws := words nk key n
    (if n < nk then key n else ws.getD (nk - 1) 0 ^^^ temp nk n (ws.getD 0 0)) :: ws

/-- A word of the expanded key. -/
def word (nk : ℕ) (key : ℕ → Word) (i : ℕ) : Word := (words nk key (i + 1)).getD 0 0

def roundKey (nk : ℕ) (key : ℕ → Word) (j : ℕ) : State :=
  ⟨word nk key (4 * j), word nk key (4 * j + 1), word nk key (4 * j + 2), word nk key (4 * j + 3)⟩

/-- The cipher under a key of `nk` words. -/
def encrypt (nk : ℕ) (key : ℕ → Word) (s : State) : State := cipher (roundKey nk key) (nk + 5) s

-- the key `00 01 02 ..` and the block `00 11 22 ..`
example : encrypt 4 (fun i => ⟨.ofNat 8 (4 * i), .ofNat 8 (4 * i + 1), .ofNat 8 (4 * i + 2), .ofNat 8 (4 * i + 3)⟩)
    ⟨⟨0x00, 0x11, 0x22, 0x33⟩, ⟨0x44, 0x55, 0x66, 0x77⟩, ⟨0x88, 0x99, 0xaa, 0xbb⟩,
      ⟨0xcc, 0xdd, 0xee, 0xff⟩⟩ =
    ⟨⟨0x69, 0xc4, 0xe0, 0xd8⟩, ⟨0x6a, 0x7b, 0x04, 0x30⟩, ⟨0xd8, 0xcd, 0xb7, 0x80⟩,
      ⟨0x70, 0xb4, 0xc5, 0x5a⟩⟩ := by
  decide +kernel

variable {nk : ℕ} {key : ℕ → Word}

theorem words_getD {n j : ℕ} (h : j < n) : (words nk key n).getD j 0 = word nk key (n - 1 - j) := by
  induction n generalizing j with
  | zero => omega
  | succ n ih =>
    cases j with
    | zero => rfl
    | succ j =>
      have hstep : (words nk key (n + 1)).getD (j + 1) 0 = (words nk key n).getD j 0 := rfl
      rw [hstep, ih (by omega), show n + 1 - 1 - (j + 1) = n - 1 - j by omega]

theorem word_next {i : ℕ} (hnk : 0 < nk) (h : nk ≤ i) :
    word nk key i = word nk key (i - nk) ^^^ temp nk i (word nk key (i - 1)) := by
  have hhead : word nk key i = (words nk key i).getD (nk - 1) 0 ^^^ temp nk i ((words nk key i).getD 0 0) :=
    if_neg (by omega)
  rw [hhead, words_getD (by omega), words_getD (by omega), show i - 1 - (nk - 1) = i - nk by omega, Nat.sub_zero]

end Schedule

end Aes

end Embark
