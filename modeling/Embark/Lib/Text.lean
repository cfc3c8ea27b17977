/-
Texts as lists of characters, with the library functions on them that the rule loaders call:
`find_left` and `substring` of Click's `String`, `atoi` and `strtoul`. A decimal numeral is read
back as the number it was printed from, whatever follows it that is not a digit.
-/
import Embark.Lib.Machine
import Mathlib.Data.List.TakeWhile

namespace Embark

/-- `String::find_left(c)`: the index of the first `c`, or -1. -/
def findLeft (s : List Char) (c : Char) : Int := if c ∈ s then s.idxOf c else -1

/-- `String::substring(pos, len)`: a negative `pos` counts from the end, a negative `len` leaves
that many characters off the end. -/
def substring (s : List Char) (pos len : Int) : List Char :=
  let pos := if pos < 0 then pos + s.length else pos
  let pos2 : Int := if len < 0 then s.length + len else if 0 ≤ pos ∧ s.length ≤ len then s.length else pos + len
  let pos := if pos < 0 then 0 else pos
  let pos2 : Int := if s.length < pos2 then s.length else pos2
  if pos2 ≤ pos then [] else (s.drop pos.toNat).take (pos2 - pos).toNat

/-- `String::substring(pos)`. -/
def suffix (s : List Char) (pos : Int) : List Char := substring s (if pos ≤ -s.length then 0 else pos) s.length

/-- `isspace` in the C locale. -/
def isSpace (c : Char) : Bool := c == ' ' || ('\t' ≤ c && c ≤ '\r')

/-- An optional sign, as whether it is a minus, and the characters after it. -/
def takeSign : List Char → Bool × List Char
  | '-' :: s => (true, s)
  | '+' :: s => (false, s)
  | s => (false, s)

/-- `atoi`; a number that is not an `int` is undefined behaviour, here `none`. -/
def atoi (s : List Char) : Option Int :=
  let (neg, s) := takeSign (s.dropWhile isSpace)
  let n : Int := Nat.ofDigitChars 10 (s.takeWhile Char.isDigit) 0
  int32 (if neg then -n else n)

/-- The value of a hexadecimal digit. -/
def hexDigit (c : Char) : Option Nat :=
  if c.isDigit then some (c.toNat - '0'.toNat)
  else if 'a' ≤ c ∧ c ≤ 'f' then some (c.toNat - 'a'.toNat + 10)
  else if 'A' ≤ c ∧ c ≤ 'F' then some (c.toNat - 'A'.toNat + 10)
  else none

/-- The characters after an optional `0x` that a hexadecimal digit follows. -/
def dropHexPrefix : List Char → List Char
  | '0' :: x :: c :: s => if (x = 'x' ∨ x = 'X') ∧ (hexDigit c).isSome then c :: s else '0' :: x :: c :: s
  | s => s

/-- `strtoul(s, nullptr, 16)`; numbers past the range give the greatest `unsigned long`. -/
def strtoulHex (s : List Char) : BitVec 64 :=
  let (neg, s) := takeSign (s.dropWhile isSpace)
  let digits := ((dropHexPrefix s).map hexDigit).takeWhile Option.isSome
  let n := digits.foldl (fun n d => 16 * n + d.getD 0) 0
  let x := BitVec.ofNat 64 (min n (2 ^ 64 - 1))
  if neg ∧ n < 2 ^ 64 then -x else x

/-- The decimal numeral of `n`. -/
def decimal (n : Nat) : List Char := Nat.toDigits 10 n

/-! ## Numerals -/

theorem isDigit_of_mem_decimal {n : Nat} {c : Char} (h : c ∈ decimal n) : c.isDigit :=
  Nat.isDigit_of_mem_toDigits (by decide) (by decide) h

theorem decimal_ne_nil (n : Nat) : decimal n ≠ [] := Nat.toDigits_ne_nil

/-- A decimal numeral of `n`: at least one digit and nothing else. Zeros may lead. -/
structure IsNumeral (s : List Char) (n : Nat) : Prop where
  ne_nil : s ≠ []
  isDigit : ∀ c ∈ s, c.isDigit
  value : Nat.ofDigitChars 10 s 0 = n

theorem isNumeral_decimal (n : Nat) : IsNumeral (decimal n) n :=
  ⟨decimal_ne_nil n, fun _ => isDigit_of_mem_decimal, Nat.ofDigitChars_ten_toDigits⟩

/-- What follows a numeral: nothing, or a character that is no digit. -/
def EndsNumeral (s : List Char) : Prop := ∀ c ∈ s.head?, c.isDigit = false

theorem endsNumeral_nil : EndsNumeral [] := by simp [EndsNumeral]

theorem endsNumeral_cons {c : Char} {s : List Char} (h : c.isDigit = false) : EndsNumeral (c :: s) := by
  intro d hd
  obtain rfl : c = d := by simpa using hd
  exact h

theorem isDigit_iff {c : Char} : c.isDigit ↔ '0' ≤ c ∧ c ≤ '9' := by
  simp only [Char.isDigit, Bool.and_eq_true, decide_eq_true_eq]
  rfl

/-- Blanks are below the digits and the letters. -/
theorem isSpace_of_zero_le {c : Char} (h0 : '0' ≤ c) : isSpace c = false := by
  unfold isSpace
  have hne : c ≠ ' ' := by
    rintro rfl
    exact absurd h0 (by decide)
  have hgt : ¬ c ≤ '\r' := fun hle => absurd (Char.le_trans h0 hle) (by decide)
  simp [hne, hgt]

theorem isSpace_of_isDigit {c : Char} (h : c.isDigit) : isSpace c = false :=
  isSpace_of_zero_le (isDigit_iff.1 h).1

theorem takeSign_of_isDigit {c : Char} {s : List Char} (h : c.isDigit) : takeSign (c :: s) = (false, c :: s) := by
  unfold takeSign
  split
  · rename_i heq
    cases heq
    exact absurd h (by decide)
  · rename_i heq
    cases heq
    exact absurd h (by decide)
  · rfl

namespace IsNumeral

variable {s t : List Char} {n : Nat}

/-- No numeral contains a character that is no digit. -/
theorem notMem (h : IsNumeral s n) {c : Char} (hc : c.isDigit = false) : c ∉ s := fun hmem => by
  rw [h.isDigit c hmem] at hc
  exact absurd hc (by decide)

theorem exists_cons (h : IsNumeral s n) : ∃ c ds, s = c :: ds ∧ c.isDigit := by
  obtain ⟨c, ds, rfl⟩ := List.exists_cons_of_ne_nil h.ne_nil
  exact ⟨c, ds, rfl, h.isDigit c (List.mem_cons_self ..)⟩

theorem takeWhile (h : IsNumeral s n) (ht : EndsNumeral t) : (s ++ t).takeWhile Char.isDigit = s := by
  rw [List.takeWhile_append_of_pos h.isDigit]
  cases t with
  | nil => simp
  | cons c t =>
    have hc : c.isDigit = false := ht c (by simp)
    simp [hc]

/-- `atoi` of a numeral. -/
theorem atoi (h : IsNumeral s n) (hn : n < 2 ^ 31) (ht : EndsNumeral t) : atoi (s ++ t) = some (n : Int) := by
  obtain ⟨c, ds, hs, hc⟩ := h.exists_cons
  have hspace : (s ++ t).dropWhile isSpace = s ++ t := by
    rw [hs, List.cons_append, List.dropWhile_cons, isSpace_of_isDigit hc]
    rfl
  have hsign : takeSign (s ++ t) = (false, s ++ t) := by
    rw [hs, List.cons_append, takeSign_of_isDigit hc]
  unfold Embark.atoi
  rw [hspace, hsign]
  simp only [Bool.false_eq_true, if_false]
  rw [h.takeWhile ht, h.value]
  exact int32_of_lt (by omega) (by omega)

/-- `atoi` of a numeral that nothing follows. -/
theorem atoi_all (h : IsNumeral s n) (hn : n < 2 ^ 31) : Embark.atoi s = some (n : Int) := by
  have happ := h.atoi hn endsNumeral_nil
  rwa [List.append_nil] at happ

end IsNumeral

/-- Leading spaces do not count. -/
theorem atoi_space (s : List Char) : atoi (' ' :: s) = atoi s := rfl

/-! ## Hexadecimal bytes -/

/-- `strtoul` of `0x` and two digits, up to a character that is no digit. -/
theorem strtoulHex_byte {c₁ c₂ : Char} {d₁ d₂ : Nat} {s : List Char} (h₁ : hexDigit c₁ = some d₁)
    (h₂ : hexDigit c₂ = some d₂) (hs : ∀ c ∈ s.head?, hexDigit c = none) :
    strtoulHex ('0' :: 'x' :: c₁ :: c₂ :: s) = BitVec.ofNat 64 (min (16 * d₁ + d₂) (2 ^ 64 - 1)) := by
  have hspace : ('0' :: 'x' :: c₁ :: c₂ :: s).dropWhile isSpace = '0' :: 'x' :: c₁ :: c₂ :: s := rfl
  have hsign : takeSign ('0' :: 'x' :: c₁ :: c₂ :: s) = (false, '0' :: 'x' :: c₁ :: c₂ :: s) := rfl
  have hpre : dropHexPrefix ('0' :: 'x' :: c₁ :: c₂ :: s) = c₁ :: c₂ :: s := by
    simp [dropHexPrefix, h₁]
  have hdigits : ((c₁ :: c₂ :: s).map hexDigit).takeWhile Option.isSome = [some d₁, some d₂] := by
    cases s with
    | nil => simp [h₁, h₂]
    | cons c s =>
      have hc : hexDigit c = none := hs c (by simp)
      simp [h₁, h₂, hc]
  unfold strtoulHex
  rw [hspace, hsign]
  simp only [hpre, hdigits, Bool.false_eq_true, false_and, if_false, List.foldl_cons, List.foldl_nil, Option.getD_some]
  rw [Nat.mul_zero, Nat.zero_add]

/-! ## Splitting at a character -/

section Split

variable {s t : List Char} {c : Char}

theorem findLeft_append (h : c ∉ s) : findLeft (s ++ c :: t) c = s.length := by
  unfold findLeft
  rw [if_pos (by simp), List.idxOf_append_of_notMem h, List.idxOf_cons_self, Nat.add_zero]

/-- A part inside the text. -/
theorem substring_eq {i n : Nat} (h : i + n ≤ s.length) : substring s i n = (s.drop i).take n := by
  have hpos : ¬ (i : Int) < 0 := by omega
  have hlen : ¬ (n : Int) < 0 := by omega
  have hend : (if 0 ≤ (i : Int) ∧ (s.length : Int) ≤ n then (s.length : Int) else i + n) = i + n := by
    split_ifs <;> omega
  have hin : ¬ (s.length : Int) < i + n := by omega
  unfold substring
  simp only [hpos, hlen, hend, hin, if_false]
  by_cases hn : n = 0
  · rw [if_pos (by omega), hn, List.take_zero]
  · rw [if_neg (by omega), Int.toNat_natCast, add_sub_cancel_left, Int.toNat_natCast]

/-- The part in front of another text. -/
theorem substring_append : substring (s ++ t) 0 s.length = s := by
  have h := substring_eq (s := s ++ t) (i := 0) (n := s.length) (by simp)
  rwa [Nat.cast_zero, List.drop_zero, List.take_left] at h

/-- Everything from `i` on. -/
theorem suffix_eq {i : Nat} (h : i ≤ s.length) : suffix s i = s.drop i := by
  unfold suffix
  by_cases h0 : (i : Int) ≤ -s.length
  · have hs : s.length = 0 := by omega
    rw [List.eq_nil_of_length_eq_zero hs]
    simp [substring]
  · have hpos : ¬ (i : Int) < 0 := by omega
    have hlen : ¬ (s.length : Int) < 0 := by omega
    have hfull : 0 ≤ (i : Int) ∧ (s.length : Int) ≤ s.length := by omega
    rw [if_neg h0]
    unfold substring
    simp only [hpos, hlen, hfull, if_false, and_self, if_true, lt_irrefl]
    split_ifs with h1
    · rw [List.drop_of_length_le (by omega)]
    · rw [Int.toNat_natCast, List.take_of_length_le (by rw [List.length_drop]; omega)]

theorem suffix_append : suffix (s ++ c :: t) (s.length + 1) = t := by
  have h := suffix_eq (s := s ++ c :: t) (i := s.length + 1) (by simp)
  rw [Nat.cast_add, Nat.cast_one] at h
  rw [h, List.append_cons, List.drop_left' (by simp)]

end Split

end Embark
