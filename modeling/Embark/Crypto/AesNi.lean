/-
AES on the AES-NI instructions (`MY_AES_*`): the key expansions by shuffles of 32-bit lanes, the
decryption keys by `aesimc`, and encryption and decryption by one instruction a round. The schedule
is that of the standard for keys of 128, 192 and 256 bits, so encryption is the standard's cipher
and decryption its inverse.
-/
import Embark.Lib.Aes
import Embark.Lib.Bytes

namespace Embark

namespace AesNi

open Aes

/-! ## The instructions -/

def aesenc (s key : State) : State := mixColumns (subBytes (shiftRows s)) ^^^ key

def aesenclast (s key : State) : State := subBytes (shiftRows s) ^^^ key

def aesdec (s key : State) : State := invMixColumns (invSubBytes (invShiftRows s)) ^^^ key

def aesdeclast (s key : State) : State := invSubBytes (invShiftRows s) ^^^ key

def aesimc (s : State) : State := invMixColumns s

def aeskeygenassist (s : State) (aesConst : BitVec 8) : State where
  x0 := subWord s.x1
  x1 := rotWord (subWord s.x1) ^^^ ⟨aesConst, 0, 0, 0⟩
  x2 := subWord s.x3
  x3 := rotWord (subWord s.x3) ^^^ ⟨aesConst, 0, 0, 0⟩

/-- The lane that two bits of an immediate select. -/
def lane (s : State) (imm : Nat) : Word :=
  match imm % 4 with
  | 0 => s.x0
  | 1 => s.x1
  | 2 => s.x2
  | _ => s.x3

/-- `_mm_shuffle_ps`. -/
def shufflePs (a b : State) (imm : Nat) : State :=
  ⟨lane a imm, lane a (imm / 4), lane b (imm / 16), lane b (imm / 64)⟩

/-- `_mm_shuffle_epi32`. -/
def shuffleEpi32 (a : State) (imm : Nat) : State :=
  ⟨lane a imm, lane a (imm / 4), lane a (imm / 16), lane a (imm / 64)⟩

@[simp] theorem shufflePs_16 (a b : State) : shufflePs a b 16 = ⟨a.x0, a.x0, b.x1, b.x0⟩ := rfl
@[simp] theorem shufflePs_140 (a b : State) : shufflePs a b 140 = ⟨a.x0, a.x3, b.x0, b.x2⟩ := rfl
@[simp] theorem shufflePs_68 (a b : State) : shufflePs a b 68 = ⟨a.x0, a.x1, b.x0, b.x1⟩ := rfl
@[simp] theorem shufflePs_78 (a b : State) : shufflePs a b 78 = ⟨a.x2, a.x3, b.x0, b.x1⟩ := rfl

@[simp] theorem shuffleEpi32_85 (a : State) : shuffleEpi32 a 85 = ⟨a.x1, a.x1, a.x1, a.x1⟩ := rfl
@[simp] theorem shuffleEpi32_170 (a : State) : shuffleEpi32 a 170 = ⟨a.x2, a.x2, a.x2, a.x2⟩ := rfl
@[simp] theorem shuffleEpi32_255 (a : State) : shuffleEpi32 a 255 = ⟨a.x3, a.x3, a.x3, a.x3⟩ := rfl

/-- `_mm_slli_si128` by four bytes. -/
def slliSi128 (a : State) : State := ⟨0, a.x0, a.x1, a.x2⟩

/-- `_mm_loadu_si128`. -/
def loadu (m : Memory) (p : Nat) : State where
  x0 := ⟨m p, m (p + 1), m (p + 2), m (p + 3)⟩
  x1 := ⟨m (p + 4), m (p + 5), m (p + 6), m (p + 7)⟩
  x2 := ⟨m (p + 8), m (p + 9), m (p + 10), m (p + 11)⟩
  x3 := ⟨m (p + 12), m (p + 13), m (p + 14), m (p + 15)⟩

/-! ## Key expansion -/

/-- `EXPAND_ASSIST`: its first and third arguments after it. The second is overwritten unread. -/
def expandAssist (v1 v3 v4 : State) (shuffConst : Nat) (aesConst : BitVec 8) : State × State :=
  let v2 := aeskeygenassist v4 aesConst
  let v3 := shufflePs v3 v1 16
  let v1 := v1 ^^^ v3
  let v3 := shufflePs v3 v1 140
  let v1 := v1 ^^^ v3
  let v2 := shuffleEpi32 v2 shuffConst
  (v1 ^^^ v2, v3)

/-- The steps of `MY_AES_128_Key_Expansion`, by their constants. -/
def expand128 (x0 x2 : State) : List (BitVec 8) → List State
  | [] => []
  | c :: cs =>
    let (x0, x2) := expandAssist x0 x2 x0 255 c
    x0 :: expand128 x0 x2 cs

/-- `MY_AES_128_Key_Expansion`. -/
def keyExpansion128 (userkey : Memory) : List State :=
  let x0 := loadu userkey 0
  x0 :: expand128 x0 0 [1, 2, 4, 8, 16, 32, 64, 128, 27, 54]

/-- `EXPAND192_STEP`, by its constants. -/
def expand192 (x0 x2 x3 tmp : State) : List (BitVec 8) → List State
  | [] => []
  | c :: cs =>
    let (y0, x2) := expandAssist x0 x2 x3 85 c
    let x3 := x3 ^^^ slliSi128 x3
    let x3 := x3 ^^^ shuffleEpi32 y0 255
    let (z0, x2) := expandAssist y0 x2 x3 85 (c * 2)
    let z3 := x3 ^^^ slliSi128 x3
    let z3 := z3 ^^^ shuffleEpi32 z0 255
    shufflePs tmp y0 68 :: shufflePs y0 x3 78 :: z0 :: expand192 z0 x2 z3 z3 cs

/-- `MY_AES_192_Key_Expansion`. The second load reads eight bytes behind a key of 24. -/
def keyExpansion192 (userkey : Memory) : List State :=
  let x0 := loadu userkey 0
  let x3 := loadu userkey 16
  x0 :: expand192 x0 0 x3 x3 [1, 4, 16, 64]

/-- The steps of `MY_AES_256_Key_Expansion`, two keys a constant; the last one writes one key. -/
def expand256 (x0 x2 x3 : State) : List (BitVec 8) → List State
  | [] => [(expandAssist x0 x2 x3 255 64).1]
  | c :: cs =>
    let (x0, x2) := expandAssist x0 x2 x3 255 c
    let (x3, x2) := expandAssist x3 x2 x0 170 c
    x0 :: x3 :: expand256 x0 x2 x3 cs

/-- `MY_AES_256_Key_Expansion`. -/
def keyExpansion256 (userkey : Memory) : List State :=
  let x0 := loadu userkey 0
  let x3 := loadu userkey 16
  x0 :: x3 :: expand256 x0 0 x3 [1, 2, 4, 8, 16, 32]

/-! ## The schedule of the standard -/

section Schedule

/-- The words of a key in memory. -/
def keyWord (userkey : Memory) (i : Nat) : Word :=
  ⟨userkey (4 * i), userkey (4 * i + 1), userkey (4 * i + 2), userkey (4 * i + 3)⟩

/-- Four words that each add the word before to the one `nk` places back. -/
def chain (s : State) (t : Word) : State where
  x0 := s.x0 ^^^ t
  x1 := s.x1 ^^^ (s.x0 ^^^ t)
  x2 := s.x2 ^^^ (s.x1 ^^^ (s.x0 ^^^ t))
  x3 := s.x3 ^^^ (s.x2 ^^^ (s.x1 ^^^ (s.x0 ^^^ t)))

/-- The two shuffles build the running sums of the lanes, as long as the lowest lane of the third
argument is zero, which they keep. -/
theorem expandAssist_eq {v3 v4 : State} {aesConst : BitVec 8} {shuffConst : Nat} {t : Word} (v1 : State) (h : v3.x0 = 0)
    (ht : shuffleEpi32 (aeskeygenassist v4 aesConst) shuffConst = ⟨t, t, t, t⟩) :
    (expandAssist v1 v3 v4 shuffConst aesConst).1 = chain v1 t ∧
      (expandAssist v1 v3 v4 shuffConst aesConst).2.x0 = 0 := by
  unfold expandAssist
  refine ⟨?_, h⟩
  simp only [ht, shufflePs_16, shufflePs_140, h]
  unfold chain
  ext1
  · simp only [Four.xor_x0, xor_zero]
  · simp only [Four.xor_x1, zero_xor, xor_assoc]
  · simp only [Four.xor_x0, Four.xor_x2, xor_zero, xor_assoc]
  · simp only [Four.xor_x2, Four.xor_x3, xor_assoc]
    rw [xor_left_comm v1.x0, xor_left_comm v1.x0]

/-- A block of four words from `i` on. -/
def wordsFrom (nk : ℕ) (key : ℕ → Word) (i : ℕ) : State :=
  ⟨word nk key i, word nk key (i + 1), word nk key (i + 2), word nk key (i + 3)⟩

theorem temp_of_plain {nk i : ℕ} (h : i % nk ≠ 0) (h' : ¬ (6 < nk ∧ i % nk = 4)) (w : Word) :
    temp nk i w = w := by
  unfold temp
  rw [if_neg h, if_neg h']

/-- The next four words, where only the first of them transforms the word before. -/
theorem chain_wordsFrom {nk i : ℕ} {key : ℕ → Word} (hnk : 4 ≤ nk)
    (hplain : ∀ j, 0 < j → j < 4 → (i + nk + j) % nk ≠ 0 ∧ ¬ (6 < nk ∧ (i + nk + j) % nk = 4)) :
    chain (wordsFrom nk key i) (temp nk (i + nk) (word nk key (i + nk - 1))) = wordsFrom nk key (i + nk) := by
  have hnext : ∀ j, word nk key (i + nk + j) =
      word nk key (i + j) ^^^ temp nk (i + nk + j) (word nk key (i + nk + j - 1)) := fun j => by
    rw [word_next (by omega) (by omega), show i + nk + j - nk = i + j by omega]
  have hsum : ∀ j, j < 3 → word nk key (i + nk + (j + 1)) = word nk key (i + (j + 1)) ^^^
    word nk key (i + nk + j) :=
    fun j hj => by
      have h := hplain (j + 1) (by omega) (by omega)
      rw [hnext, temp_of_plain h.1 h.2, show i + nk + (j + 1) - 1 = i + nk + j by omega]
  have h0 := hnext 0
  have h1 := hsum 0 (by omega)
  have h2 := hsum 1 (by omega)
  have h3 := hsum 2 (by omega)
  simp only [Nat.add_zero, Nat.zero_add, Nat.reduceAdd] at h0 h1 h2 h3
  unfold chain wordsFrom
  simp only
  rw [← h0, ← h1, ← h2, ← h3]

theorem roundKey_eq (nk : ℕ) (key : ℕ → Word) (j : ℕ) : roundKey nk key j = wordsFrom nk key (4 * j) := rfl

/-- The temporary word of a multiple of `nk`, as the assist instruction leaves it in a lane. -/
theorem temp_mul {nk : ℕ} (hnk : 0 < nk) (m : ℕ) (w : Word) :
    temp nk (nk * m) w = rotWord (subWord w) ^^^ ⟨rcon m, 0, 0, 0⟩ := by
  unfold temp
  rw [if_pos (Nat.mul_mod_right nk m), Nat.mul_div_cancel_left m hnk, subWord_rotWord]

variable {key : ℕ → Word}

/-! ### 128 bits -/

theorem expand128_cons (x0 x2 : State) (c : BitVec 8) (cs : List (BitVec 8)) : expand128 x0 x2 (c :: cs) =
    (expandAssist x0 x2 x0 255 c).1 :: expand128 (expandAssist x0 x2 x0 255 c).1 (expandAssist x0 x2 x0 255 c).2 cs :=
  rfl

theorem expand128_eq : ∀ (n j : ℕ) (x2 : State), x2.x0 = 0 →
    expand128 (roundKey 4 key j) x2 ((List.range' (j + 1) n).map rcon) = (List.range' (j + 1) n).map (roundKey 4 key)
  | 0, _, _, _ => rfl
  | n + 1, j, x2, hx2 => by
    have htemp : (aeskeygenassist (roundKey 4 key j) (rcon (j + 1))).x3 =
        temp 4 (4 * j + 4) (word 4 key (4 * j + 4 - 1)) := (temp_mul (by decide) (j + 1) _).symm
    obtain ⟨hsum, hzero⟩ := expandAssist_eq (roundKey 4 key j) hx2 (shuffleEpi32_255 _)
    rw [htemp, roundKey_eq, chain_wordsFrom (by decide) fun i h1 h2 => ⟨by omega, by omega⟩] at hsum
    rw [List.range'_succ, List.map_cons, List.map_cons, expand128_cons, roundKey_eq 4 key j, hsum]
    exact congrArg _ (expand128_eq n (j + 1) _ hzero)

theorem keyExpansion128_eq (userkey : Memory) :
    keyExpansion128 userkey = (List.range 11).map (roundKey 4 (keyWord userkey)) := by
  have hconst : [1, 2, 4, 8, 16, 32, 64, 128, 27, 54] = (List.range' 1 10).map rcon := by decide
  have hkeys := @expand128_eq (keyWord userkey) 10 0 0 rfl
  unfold keyExpansion128
  rw [hconst]
  exact congrArg _ hkeys

/-! ### 192 bits -/

/-- `x3` of a 192-bit step: its two low lanes add the words before to their own. -/
def low192 (x3 x0 : State) : State := x3 ^^^ slliSi128 x3 ^^^ shuffleEpi32 x0 255

/-- The two low lanes of `x3` hold the fifth and sixth word of a round of six. -/
def Low192 (key : ℕ → Word) (i : ℕ) (x3 : State) : Prop :=
  x3.x0 = word 6 key (6 * i + 4) ∧ x3.x1 = word 6 key (6 * i + 5)

/-- Half of a 192-bit step: the next six words. -/
theorem half192 {i : ℕ} {x2 x3 : State} (hx2 : x2.x0 = 0) (hx3 : Low192 key i x3) :
    (expandAssist (wordsFrom 6 key (6 * i)) x2 x3 85 (rcon (i + 1))).1 = wordsFrom 6 key (6 * (i + 1)) ∧
      (expandAssist (wordsFrom 6 key (6 * i)) x2 x3 85 (rcon (i + 1))).2.x0 = 0 ∧
      Low192 key (i + 1) (low192 x3 (wordsFrom 6 key (6 * (i + 1)))) := by
  obtain ⟨h4, h5⟩ := hx3
  have htemp : (aeskeygenassist x3 (rcon (i + 1))).x1 = temp 6 (6 * (i + 1)) (word 6 key (6 * (i + 1) - 1)) := by
    rw [temp_mul (by decide), show 6 * (i + 1) - 1 = 6 * i + 5 by omega, ← h5]
    rfl
  obtain ⟨hsum, hzero⟩ := expandAssist_eq (wordsFrom 6 key (6 * i)) hx2
    (shuffleEpi32_85 (aeskeygenassist x3 (rcon (i + 1))))
  rw [htemp, show 6 * (i + 1) = 6 * i + 6 by omega,
    chain_wordsFrom (by decide) fun j h1 h2 => ⟨by omega, by omega⟩] at hsum
  have hplain : ∀ j, 6 * (i + 1) < j → j < 6 * (i + 2) →
      word 6 key j = word 6 key (j - 6) ^^^ word 6 key (j - 1) := fun j h1 h2 => by
    rw [word_next (by decide) (by omega), temp_of_plain (by omega) (by omega)]
  have h10 := hplain (6 * (i + 1) + 4) (by omega) (by omega)
  have h11 := hplain (6 * (i + 1) + 5) (by omega) (by omega)
  rw [show 6 * (i + 1) + 4 - 6 = 6 * i + 4 by omega, ← h4] at h10
  rw [show 6 * (i + 1) + 5 - 6 = 6 * i + 5 by omega, ← h5] at h11
  refine ⟨hsum, hzero, ?_, ?_⟩
  · rw [h10]
    simp only [low192, slliSi128, shuffleEpi32_255, wordsFrom, Four.xor_x0, xor_zero]
    rfl
  · rw [h11, show 6 * (i + 1) + 5 - 1 = 6 * (i + 1) + 4 by omega, h10]
    simp only [low192, slliSi128, shuffleEpi32_255, wordsFrom, Four.xor_x1, xor_assoc]
    rfl

theorem expand192_cons (x0 x2 x3 tmp : State) (c : BitVec 8) (cs : List (BitVec 8)) :
    expand192 x0 x2 x3 tmp (c :: cs) =
      let y := expandAssist x0 x2 x3 85 c
      let x3 := low192 x3 y.1
      let z := expandAssist y.1 y.2 x3 85 (c * 2)
      let z3 := low192 x3 z.1
      shufflePs tmp y.1 68 :: shufflePs y.1 x3 78 :: z.1 :: expand192 z.1 z.2 z3 z3 cs := rfl

theorem expand192_eq : ∀ (n m : ℕ) (x2 x3 : State), x2.x0 = 0 → Low192 key (2 * m) x3 →
    (∀ i, m ≤ i → i < m + n → rcon (2 * i + 1) * 2 = rcon (2 * i + 2)) →
    expand192 (wordsFrom 6 key (6 * (2 * m))) x2 x3 x3 ((List.range' m n).map fun i => rcon (2 * i + 1)) =
      (List.range' (3 * m + 1) (3 * n)).map (roundKey 6 key)
  | 0, _, _, _, _, _, _ => rfl
  | n + 1, m, x2, x3, hx2, hx3, hconst => by
    obtain ⟨hy, hy2, hy3⟩ := half192 hx2 hx3
    obtain ⟨hz, hz2, hz3⟩ := half192 hy2 hy3
    have ih := expand192_eq n (m + 1) _ _ hz2 hz3 fun i h1 h2 => hconst i (by omega) (by omega)
    have h68 : shufflePs x3 (wordsFrom 6 key (6 * (2 * m + 1))) 68 = roundKey 6 key (3 * m + 1) := by
      rw [roundKey_eq, shufflePs_68, hx3.1, hx3.2]
      unfold wordsFrom
      grind
    have h78 : shufflePs (wordsFrom 6 key (6 * (2 * m + 1))) (low192 x3 (wordsFrom 6 key (6 * (2 * m + 1)))) 78 =
        roundKey 6 key (3 * m + 2) := by
      rw [roundKey_eq, shufflePs_78, hy3.1, hy3.2]
      unfold wordsFrom
      grind
    have hz0 : wordsFrom 6 key (6 * (2 * m + 1 + 1)) = roundKey 6 key (3 * m + 3) := by
      rw [roundKey_eq, show 4 * (3 * m + 3) = 6 * (2 * m + 1 + 1) by omega]
    have hlist : List.range' (3 * m + 1) (3 * (n + 1)) =
        (3 * m + 1) :: (3 * m + 2) :: (3 * m + 3) :: List.range' (3 * (m + 1) + 1) (3 * n) := by
      rw [show 3 * (n + 1) = 3 * n + 1 + 1 + 1 by omega, List.range'_succ, List.range'_succ, List.range'_succ]
      rfl
    rw [hlist, List.map_cons, List.map_cons, List.map_cons, ← ih, ← h68, ← h78, ← hz0, List.range'_succ,
      List.map_cons, expand192_cons, hconst m (by omega) (by omega)]
    simp only [hy]
    rw [hz, show 2 * (m + 1) = 2 * m + 1 + 1 by omega]

theorem keyExpansion192_eq (userkey : Memory) :
    keyExpansion192 userkey = (List.range 13).map (roundKey 6 (keyWord userkey)) := by
  have hconst : [1, 4, 16, 64] = (List.range' 0 4).map fun i => rcon (2 * i + 1) := by decide
  have hkeys := @expand192_eq (keyWord userkey) 4 0 0 (loadu userkey 16) rfl ⟨rfl, rfl⟩ (by decide)
  unfold keyExpansion192
  rw [hconst]
  exact congrArg _ hkeys

/-! ### 256 bits -/

theorem expand256_cons (x0 x2 x3 : State) (c : BitVec 8) (cs : List (BitVec 8)) :
    expand256 x0 x2 x3 (c :: cs) =
      let y := expandAssist x0 x2 x3 255 c
      let z := expandAssist x3 y.2 y.1 170 c
      y.1 :: z.1 :: expand256 y.1 z.2 z.1 cs := rfl

/-- The first half of a 256-bit step: the next four words. -/
theorem first256 {j : ℕ} {x2 : State} (hx2 : x2.x0 = 0) :
    (expandAssist (roundKey 8 key (2 * j)) x2 (roundKey 8 key (2 * j + 1)) 255 (rcon (j + 1))).1 =
        roundKey 8 key (2 * (j + 1)) ∧
      (expandAssist (roundKey 8 key (2 * j)) x2 (roundKey 8 key (2 * j + 1)) 255 (rcon (j + 1))).2.x0 = 0 := by
  have htemp : (aeskeygenassist (roundKey 8 key (2 * j + 1)) (rcon (j + 1))).x3 =
      temp 8 (4 * (2 * j) + 8) (word 8 key (4 * (2 * j) + 8 - 1)) := by
    rw [show 4 * (2 * j) + 8 = 8 * (j + 1) by omega, temp_mul (by decide),
      show 8 * (j + 1) - 1 = 4 * (2 * j + 1) + 3 by omega]
    rfl
  obtain ⟨hsum, hzero⟩ := expandAssist_eq (roundKey 8 key (2 * j)) hx2
    (shuffleEpi32_255 (aeskeygenassist (roundKey 8 key (2 * j + 1)) (rcon (j + 1))))
  rw [htemp, roundKey_eq 8 key (2 * j), chain_wordsFrom (by decide) fun i h1 h2 => ⟨by omega, by omega⟩,
    show 4 * (2 * j) + 8 = 4 * (2 * (j + 1)) by omega] at hsum
  exact ⟨hsum, hzero⟩

/-- The second half. -/
theorem second256 {j : ℕ} {x2 : State} (hx2 : x2.x0 = 0) (c : BitVec 8) :
    (expandAssist (roundKey 8 key (2 * j + 1)) x2 (roundKey 8 key (2 * (j + 1))) 170 c).1 =
        roundKey 8 key (2 * (j + 1) + 1) ∧
      (expandAssist (roundKey 8 key (2 * j + 1)) x2 (roundKey 8 key (2 * (j + 1))) 170 c).2.x0 = 0 := by
  have htemp : (aeskeygenassist (roundKey 8 key (2 * (j + 1))) c).x2 =
      temp 8 (4 * (2 * j + 1) + 8) (word 8 key (4 * (2 * j + 1) + 8 - 1)) := by
    unfold temp
    rw [if_neg (by omega), if_pos ⟨by decide, by omega⟩,
      show 4 * (2 * j + 1) + 8 - 1 = 4 * (2 * (j + 1)) + 3 by omega]
    rfl
  obtain ⟨hsum, hzero⟩ := expandAssist_eq (roundKey 8 key (2 * j + 1)) hx2
    (shuffleEpi32_170 (aeskeygenassist (roundKey 8 key (2 * (j + 1))) c))
  rw [htemp, roundKey_eq 8 key (2 * j + 1), chain_wordsFrom (by decide) fun i h1 h2 => ⟨by omega, by omega⟩,
    show 4 * (2 * j + 1) + 8 = 4 * (2 * (j + 1) + 1) by omega] at hsum
  exact ⟨hsum, hzero⟩

theorem expand256_eq : ∀ (n j : ℕ) (x2 : State), x2.x0 = 0 → rcon (j + n + 1) = 64 →
    expand256 (roundKey 8 key (2 * j)) x2 (roundKey 8 key (2 * j + 1)) ((List.range' (j + 1) n).map rcon) =
      (List.range' (2 * (j + 1)) (2 * n + 1)).map (roundKey 8 key)
  | 0, j, x2, hx2, hlast => by
    have h := (@first256 key j _ hx2).1
    rw [show j + 1 = j + 0 + 1 by omega, hlast] at h
    exact congrArg (· :: []) h
  | n + 1, j, x2, hx2, hlast => by
    obtain ⟨hy, hy2⟩ := @first256 key j _ hx2
    obtain ⟨hz, hz2⟩ := @second256 key j _ hy2 (rcon (j + 1))
    have ih := expand256_eq n (j + 1) _ hz2 (by rwa [show j + 1 + n + 1 = j + (n + 1) + 1 by omega])
    have hlist : List.range' (2 * (j + 1)) (2 * (n + 1) + 1) =
        2 * (j + 1) :: (2 * (j + 1) + 1) :: List.range' (2 * (j + 1 + 1)) (2 * n + 1) := by
      rw [show 2 * (n + 1) + 1 = 2 * n + 1 + 1 + 1 by omega, List.range'_succ, List.range'_succ]
      rfl
    rw [hlist, List.map_cons, List.map_cons, ← ih, List.range'_succ, List.map_cons, expand256_cons]
    simp only [hy, hz]

theorem keyExpansion256_eq (userkey : Memory) :
    keyExpansion256 userkey = (List.range 15).map (roundKey 8 (keyWord userkey)) := by
  have hconst : [1, 2, 4, 8, 16, 32] = (List.range' 1 6).map rcon := by decide
  have hkeys := @expand256_eq (keyWord userkey) 6 0 0 rfl (by decide)
  unfold keyExpansion256
  rw [hconst]
  exact congrArg (roundKey 8 (keyWord userkey) 0 :: roundKey 8 (keyWord userkey) 1 :: ·) hkeys

end Schedule

/-! ## `MY_AES_KEY` -/

/-- `MY_AES_KEY`. -/
structure AesKey where
  rdKey : Vector State 15
  rounds : Nat

/-- The keys `MY_AES_set_encrypt_key` writes for a key of `bits` bits; none for other sizes. -/
def keyExpansion (userKey : Memory) (bits : Nat) : List State :=
  if bits = 128 then keyExpansion128 userKey
  else if bits = 192 then keyExpansion192 userKey
  else if bits = 256 then keyExpansion256 userKey
  else []

/-- `MY_AES_set_encrypt_key`. The keys behind the schedule keep what they held. -/
def setEncryptKey (userKey : Memory) (bits : Nat) (key : AesKey) : AesKey where
  rdKey := Vector.ofFn fun i => (keyExpansion userKey bits).getD i key.rdKey[i]
  rounds := 6 + bits / 32

/-- The loop of `MY_AES_set_decrypt_key_fast` from an index on down to 0. -/
def decryptKeys (ekey : Vector State 15) : Nat → Nat → Vector State 15 → Option (Vector State 15)
  | 0, j, dkey => do
    return dkey.set 0 (← ekey[j]?)
  | i + 1, j, dkey => do
    let s ← ekey[j]?
    if h : i + 1 < 15 then decryptKeys ekey i (j + 1) (dkey.set (i + 1) (aesimc s)) else none

/-- `MY_AES_set_decrypt_key_fast`; an index outside `rd_key` is `none`. -/
def setDecryptKeyFast (dkey ekey : AesKey) : Option AesKey := do
  let i := ekey.rounds
  let s ← ekey.rdKey[0]?
  if h : 0 < i ∧ i < 15 then
    return ⟨← decryptKeys ekey.rdKey (i - 1) 1 (dkey.rdKey.set i s), i⟩
  else none

/-- `MY_AES_set_decrypt_key`; `temp` is what the local key held. -/
def setDecryptKey (userKey : Memory) (bits : Nat) (temp key : AesKey) : Option AesKey :=
  setDecryptKeyFast key (setEncryptKey userKey bits temp)

/-- One block: the first key, the rounds by `step`, and `last` with the key behind them. -/
def crypt (step last : State → State → State) (key : AesKey) (tmp : State) : Option State := do
  let tmp := tmp ^^^ (← key.rdKey[0]?)
  let tmp ← (List.range' 1 (key.rounds - 1)).foldlM (fun tmp j => do return step tmp (← key.rdKey[j]?)) tmp
  return last tmp (← key.rdKey[max 1 key.rounds]?)

/-- `MY_AES_encrypt`. -/
def encrypt (key : AesKey) (tmp : State) : Option State := crypt aesenc aesenclast key tmp

/-- `MY_AES_decrypt`. -/
def decrypt (key : AesKey) (tmp : State) : Option State := crypt aesdec aesdeclast key tmp

/-- The same for a list of blocks, round by round over all of them. -/
def cryptBlks (step last : State → State → State) (key : AesKey) (blks : List State) : Option (List State) := do
  let k ← key.rdKey[0]?
  let blks := blks.map (· ^^^ k)
  let blks ← (List.range' 1 (key.rounds - 1)).foldlM
    (fun blks j => do let k ← key.rdKey[j]?; return blks.map (step · k)) blks
  let k ← key.rdKey[max 1 key.rounds]?
  return blks.map (last · k)

/-- `MY_AES_ecb_encrypt_blks`. -/
def ecbEncryptBlks (key : AesKey) (blks : List State) : Option (List State) := cryptBlks aesenc aesenclast key blks

/-- `MY_AES_ecb_decrypt_blks`. -/
def ecbDecryptBlks (key : AesKey) (blks : List State) : Option (List State) := cryptBlks aesdec aesdeclast key blks

/-! ## Encryption -/

section Rounds

variable {step last : State → State → State} {key : AesKey} {k : ℕ → State} {n : ℕ}

/-- The state after the first key and `n` rounds by `step`. -/
def iterRounds (step : State → State → State) (k : ℕ → State) : ℕ → State → State
  | 0, s => s ^^^ k 0
  | n + 1, s => step (iterRounds step k n s) (k (n + 1))

/-- `key` holds the keys `k 0` to `k (n + 1)`. -/
def Scheduled (key : AesKey) (k : ℕ → State) (n : ℕ) : Prop :=
  key.rounds = n + 1 ∧ ∀ i ≤ n + 1, key.rdKey[i]? = some (k i)

theorem foldlM_rounds (h : Scheduled key k n) (s : State) : ∀ i ≤ n,
    (List.range' 1 i).foldlM (fun tmp j => do return step tmp (← key.rdKey[j]?)) (s ^^^ k 0) =
      some (iterRounds step k i s)
  | 0, _ => rfl
  | i + 1, hi => by
    have ih := foldlM_rounds h s i (by omega)
    rw [List.range'_1_concat, List.foldlM_append, ih]
    simp only [Option.bind_eq_bind, Option.bind_some, List.foldlM_cons, List.foldlM_nil, Option.pure_def,
      show 1 + i = i + 1 by omega, h.2 (i + 1) (by omega)]
    rfl

theorem crypt_eq (h : Scheduled key k n) (s : State) :
    crypt step last key s = some (last (iterRounds step k n s) (k (n + 1))) := by
  have hfold := @foldlM_rounds step key k n h s n le_rfl
  unfold crypt
  rw [h.1, Nat.add_sub_cancel, show max 1 (n + 1) = n + 1 by omega, h.2 0 (by omega), h.2 (n + 1) le_rfl]
  exact congrArg (fun o => o.bind fun tmp => some (last tmp (k (n + 1)))) hfold

theorem foldlM_blks (h : Scheduled key k n) (blks : List State) : ∀ i ≤ n,
    (List.range' 1 i).foldlM (fun blks j => do let k ← key.rdKey[j]?; return blks.map (step · k))
      (blks.map (· ^^^ k 0)) = some (blks.map (iterRounds step k i))
  | 0, _ => rfl
  | i + 1, hi => by
    have ih := foldlM_blks h blks i (by omega)
    rw [List.range'_1_concat, List.foldlM_append, ih]
    simp only [Option.bind_eq_bind, Option.bind_some, List.foldlM_cons, List.foldlM_nil, Option.pure_def,
      show 1 + i = i + 1 by omega, h.2 (i + 1) (by omega), List.map_map]
    rfl

/-- All blocks in step come out as each alone. -/
theorem cryptBlks_eq (h : Scheduled key k n) (blks : List State) :
    cryptBlks step last key blks = some (blks.map fun s => last (iterRounds step k n s) (k (n + 1))) := by
  have hfold := @foldlM_blks step key k n h blks n le_rfl
  unfold cryptBlks
  rw [h.1, Nat.add_sub_cancel, show max 1 (n + 1) = n + 1 by omega, h.2 0 (by omega), h.2 (n + 1) le_rfl]
  have hlast := congrArg (fun o => o.bind fun blks => some (blks.map (last · (k (n + 1))))) hfold
  rw [Option.bind_some, List.map_map] at hlast
  exact hlast

end Rounds

theorem iterRounds_aesenc (k : ℕ → State) (n : ℕ) (s : State) : iterRounds aesenc k n s = fullRounds k n s := by
  induction n with
  | zero => rfl
  | succ n ih => rw [iterRounds, fullRounds, ih, aesenc, shiftRows_subBytes]

theorem aesenclast_eq (s k : State) : aesenclast s k = shiftRows (subBytes s) ^^^ k := by
  rw [aesenclast, shiftRows_subBytes]

theorem iterRounds_aesdec (d : ℕ → State) (n : ℕ) (s : State) : iterRounds aesdec d n s = invRounds d n s := by
  induction n with
  | zero => rfl
  | succ n ih => rw [iterRounds, invRounds, ih, aesdec, invShiftRows_invSubBytes]

/-! ## The keys -/

section Keys

variable {userKey : Memory} {nk : ℕ}

theorem keyExpansion_eq (hnk : nk = 4 ∨ nk = 6 ∨ nk = 8) :
    keyExpansion userKey (32 * nk) = (List.range (nk + 7)).map (roundKey nk (keyWord userKey)) := by
  rcases hnk with rfl | rfl | rfl
  · exact keyExpansion128_eq userKey
  · exact keyExpansion192_eq userKey
  · exact keyExpansion256_eq userKey

theorem scheduled_setEncryptKey (hnk : nk = 4 ∨ nk = 6 ∨ nk = 8) (key : AesKey) :
    Scheduled (setEncryptKey userKey (32 * nk) key) (roundKey nk (keyWord userKey)) (nk + 5) := by
  refine ⟨?_, fun i hi => ?_⟩
  · show 6 + 32 * nk / 32 = nk + 5 + 1
    omega
  · have hlt : i < 15 := by omega
    unfold setEncryptKey
    rw [Vector.getElem?_eq_getElem hlt, Vector.getElem_ofFn, keyExpansion_eq hnk]
    simp only [List.getD_eq_getElem?_getD, List.getElem?_map, List.getElem?_range (show i < nk + 7 by omega),
      Option.map_some, Option.getD_some]

/-- The loop of the decryption keys: what it leaves at 0, what it writes, what it keeps. -/
theorem decryptKeys_eq (ekey : Vector State 15) : ∀ (i j : ℕ) (dkey : Vector State 15), i + j < 15 →
    ∃ d, decryptKeys ekey i j dkey = some d ∧ d[0]? = ekey[i + j]? ∧
      (∀ l, 0 < l → l ≤ i → d[l]? = ekey[j + (i - l)]?.map aesimc) ∧ ∀ l, i < l → d[l]? = dkey[l]?
  | 0, j, dkey, h => by
    have hj : j < 15 := by omega
    refine ⟨dkey.set 0 ekey[j], ?_, ?_, fun l h1 h2 => by omega,
      fun l hl => Vector.getElem?_set_ne (by omega) (by omega)⟩
    · rw [decryptKeys, Vector.getElem?_eq_getElem hj]
      rfl
    · rw [Nat.zero_add, Vector.getElem?_eq_getElem hj]
      exact Vector.getElem?_set_self (by omega)
  | i + 1, j, dkey, h => by
    have hj : j < 15 := by omega
    have hi : i + 1 < 15 := by omega
    obtain ⟨d, hd, h0, hwritten, hkept⟩ := decryptKeys_eq ekey i (j + 1) (dkey.set (i + 1) (aesimc ekey[j]))
      (by omega)
    refine ⟨d, ?_, ?_, ?_, ?_⟩
    · rw [decryptKeys, Vector.getElem?_eq_getElem hj]
      simp only [Option.bind_eq_bind, Option.bind_some, dif_pos hi, hd]
    · rw [h0, show i + (j + 1) = i + 1 + j by omega]
    · intro l h1 h2
      rcases Nat.lt_or_ge i l with hl | hl
      · obtain rfl : l = i + 1 := by omega
        have hset : (dkey.set (i + 1) (aesimc ekey[j]))[i + 1]? = some (aesimc ekey[j]) := Vector.getElem?_set_self hi
        rw [hkept _ hl, hset, Nat.sub_self, Nat.add_zero, Vector.getElem?_eq_getElem hj]
        rfl
      · rw [hwritten l h1 hl, show j + 1 + (i - l) = j + (i + 1 - l) by omega]
    · intro l hl
      rw [hkept l (by omega)]
      exact Vector.getElem?_set_ne (by omega) (by omega)

/-- The keys of a schedule in the order and the form that decryption uses them. -/
def reversed (k : ℕ → State) (n i : ℕ) : State :=
  if i = 0 then k (n + 1) else if i = n + 1 then k 0 else aesimc (k (n + 1 - i))

theorem reversed_last (k : ℕ → State) (n : ℕ) : reversed k n (n + 1) = k 0 := by
  unfold reversed
  rw [if_neg (by omega), if_pos rfl]

theorem reversed_mid (k : ℕ → State) {n i : ℕ} (h : 0 < i) (h' : i ≤ n) :
    reversed k n i = aesimc (k (n + 1 - i)) := by
  unfold reversed
  rw [if_neg (by omega), if_neg (by omega)]

theorem decryptionKeys_reversed (k : ℕ → State) (n : ℕ) : DecryptionKeys k (reversed k n) n := by
  refine ⟨if_pos rfl, reversed_last k n, fun i hi => ?_⟩
  rw [reversed_mid k (by omega) hi, Nat.add_sub_add_right]
  rfl

/-- The decryption keys of a scheduled key. -/
theorem scheduled_setDecryptKeyFast {ekey : AesKey} {k : ℕ → State} {n : ℕ} (h : Scheduled ekey k n)
    (hn : n + 1 < 15) (dkey : AesKey) :
    ∃ dkey', setDecryptKeyFast dkey ekey = some dkey' ∧ Scheduled dkey' (reversed k n) n := by
  obtain ⟨hr, hk⟩ := h
  obtain ⟨v, hv, h0, hwritten, hkept⟩ := decryptKeys_eq ekey.rdKey n 1 (dkey.rdKey.set (n + 1) (k 0)) (by omega)
  refine ⟨⟨v, n + 1⟩, ?_, rfl, fun i hi => ?_⟩
  · unfold setDecryptKeyFast
    simp only [hr, hk 0 (by omega), Option.bind_eq_bind, Option.bind_some, Nat.add_sub_cancel,
      dif_pos (show 0 < n + 1 ∧ n + 1 < 15 from ⟨by omega, hn⟩), hv, Option.pure_def]
  · rcases Nat.eq_zero_or_pos i with rfl | hpos
    · exact h0.trans (hk (n + 1) le_rfl)
    · rcases Nat.eq_or_lt_of_le hi with rfl | hlt
      · rw [reversed_last]
        exact (hkept (n + 1) (by omega)).trans (Vector.getElem?_set_self hn)
      · have hw := hwritten i hpos (by omega)
        rw [reversed_mid k hpos (by omega)]
        rwa [show 1 + (n - i) = n + 1 - i by omega, hk _ (by omega)] at hw

end Keys

/-! ## The cipher of the standard -/

section Standard

variable {userKey : Memory} {nk : ℕ}

theorem encrypt_eq (hnk : nk = 4 ∨ nk = 6 ∨ nk = 8) (key : AesKey) (s : State) :
    encrypt (setEncryptKey userKey (32 * nk) key) s = some (Aes.encrypt nk (keyWord userKey) s) := by
  unfold encrypt
  rw [crypt_eq (scheduled_setEncryptKey hnk key), iterRounds_aesenc, aesenclast_eq, Aes.encrypt, cipher]

theorem ecbEncryptBlks_eq (hnk : nk = 4 ∨ nk = 6 ∨ nk = 8) (key : AesKey) (blks : List State) :
    ecbEncryptBlks (setEncryptKey userKey (32 * nk) key) blks = some (blks.map (Aes.encrypt nk (keyWord userKey))) := by
  unfold ecbEncryptBlks
  rw [cryptBlks_eq (scheduled_setEncryptKey hnk key)]
  refine congrArg some (List.map_congr_left fun s _ => ?_)
  rw [iterRounds_aesenc, aesenclast_eq, Aes.encrypt, cipher]

/-- For keys of 128, 192 and 256 bits, whatever lies behind the key in memory and in the schedule
before the call: the keys are the standard's key schedule, and encryption is the standard's cipher
under the key, for one block and for any number of blocks at a time. -/
theorem encrypt_standard (hnk : nk = 4 ∨ nk = 6 ∨ nk = 8) (userKey : Memory) (key : AesKey) :
    Scheduled (setEncryptKey userKey (32 * nk) key) (roundKey nk (keyWord userKey)) (nk + 5) ∧
    (∀ s, encrypt (setEncryptKey userKey (32 * nk) key) s = some (Aes.encrypt nk (keyWord userKey) s)) ∧
    ∀ blks, ecbEncryptBlks (setEncryptKey userKey (32 * nk) key) blks =
      some (blks.map (Aes.encrypt nk (keyWord userKey))) :=
  ⟨scheduled_setEncryptKey hnk key, encrypt_eq hnk key, ecbEncryptBlks_eq hnk key⟩

/-- The bytes 0, 1, 2 and so on. -/
def countingKey : Memory := fun i => BitVec.ofNat 8 i

def exampleBlock : State := loadu (fun i => BitVec.ofNat 8 (0x11 * i)) 0

def zeroKey : AesKey := ⟨Vector.replicate 15 0, 0⟩

theorem encrypt_standard_example : encrypt (setEncryptKey countingKey 128 zeroKey) exampleBlock =
    some (Aes.encrypt 4 (keyWord countingKey) exampleBlock) :=
  (encrypt_standard (.inl rfl) countingKey zeroKey).2.1 exampleBlock

/-- The key whose schedule decrypts, and what it makes of a block. -/
theorem exists_decrypt (hnk : nk = 4 ∨ nk = 6 ∨ nk = 8) (temp key : AesKey) :
    ∃ dkey, setDecryptKey userKey (32 * nk) temp key = some dkey ∧
      (∀ c, decrypt dkey c = some (invCipher (roundKey nk (keyWord userKey)) (nk + 5) c)) ∧
      ∀ blks, ecbDecryptBlks dkey blks = some (blks.map (invCipher (roundKey nk (keyWord userKey)) (nk + 5))) := by
  have hsched := @scheduled_setEncryptKey userKey nk hnk temp
  obtain ⟨dkey, hd, hdsched⟩ := scheduled_setDecryptKeyFast hsched (by omega) key
  have hkeys := decryptionKeys_reversed (roundKey nk (keyWord userKey)) (nk + 5)
  have hone : ∀ c, aesdeclast (iterRounds aesdec (reversed (roundKey nk (keyWord userKey)) (nk + 5)) (nk + 5) c)
      (reversed (roundKey nk (keyWord userKey)) (nk + 5) (nk + 5 + 1)) =
      invCipher (roundKey nk (keyWord userKey)) (nk + 5) c := fun c => by
    rw [← eqInvCipher_eq hkeys, iterRounds_aesdec, aesdeclast, ← invShiftRows_invSubBytes, eqInvCipher]
  refine ⟨dkey, hd, fun c => ?_, fun blks => ?_⟩
  · unfold decrypt
    rw [crypt_eq hdsched, hone]
  · unfold ecbDecryptBlks
    rw [cryptBlks_eq hdsched]
    exact congrArg some (List.map_congr_left fun s _ => hone s)

/-- Decryption under the same key undoes encryption and the other way round, for one block and for any
number of blocks at a time. -/
theorem decrypt_encrypt (hnk : nk = 4 ∨ nk = 6 ∨ nk = 8) (userKey : Memory) (key temp key' : AesKey) :
    ∃ dkey, setDecryptKey userKey (32 * nk) temp key' = some dkey ∧
      (∀ s, (encrypt (setEncryptKey userKey (32 * nk) key) s).bind (decrypt dkey) = some s) ∧
      (∀ c, (decrypt dkey c).bind (encrypt (setEncryptKey userKey (32 * nk) key)) = some c) ∧
      (∀ blks, (ecbEncryptBlks (setEncryptKey userKey (32 * nk) key) blks).bind (ecbDecryptBlks dkey) = some blks) ∧
      ∀ blks, (ecbDecryptBlks dkey blks).bind (ecbEncryptBlks (setEncryptKey userKey (32 * nk) key)) = some blks := by
  obtain ⟨dkey, hd, hone, hall⟩ := @exists_decrypt userKey nk hnk temp key'
  have hleft : ∀ s, invCipher (roundKey nk (keyWord userKey)) (nk + 5) (Aes.encrypt nk (keyWord userKey) s) = s :=
    invCipher_cipher (nk + 5)
  have hright : ∀ c, Aes.encrypt nk (keyWord userKey) (invCipher (roundKey nk (keyWord userKey)) (nk + 5) c) = c :=
    cipher_invCipher (nk + 5)
  refine ⟨dkey, hd, fun s => ?_, fun c => ?_, fun blks => ?_, fun blks => ?_⟩
  · rw [encrypt_eq hnk, Option.bind_some, hone, hleft]
  · rw [hone, Option.bind_some, encrypt_eq hnk, hright]
  · rw [ecbEncryptBlks_eq hnk, Option.bind_some, hall, List.map_map]
    exact congrArg some (List.map_id'' hleft blks)
  · rw [hall, Option.bind_some, ecbEncryptBlks_eq hnk, List.map_map]
    exact congrArg some (List.map_id'' hright blks)

theorem decrypt_encrypt_example : ∃ dkey, setDecryptKey countingKey 256 zeroKey zeroKey = some dkey ∧
    (encrypt (setEncryptKey countingKey 256 zeroKey) exampleBlock).bind (decrypt dkey) = some exampleBlock ∧
    (ecbDecryptBlks dkey [exampleBlock, 0]).bind (ecbEncryptBlks (setEncryptKey countingKey 256 zeroKey)) =
      some [exampleBlock, 0] := by
  obtain ⟨dkey, hd, hback, -, -, hblks⟩ := decrypt_encrypt (.inr (.inr rfl)) countingKey zeroKey zeroKey zeroKey
  exact ⟨dkey, hd, hback exampleBlock, hblks [exampleBlock, 0]⟩

end Standard

end AesNi

end Embark
