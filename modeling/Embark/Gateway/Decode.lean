/-
The rule encryptor's two decoders. `decode_prefix` gives the first and the last address of every
prefix but those of length 0, whose mask it would have to shift by its full width. `decode_addr`
converts IPv4 addresses only: an IPv6 address is what `decode_prefix` makes of it if its bytes read
the same in both orders.
-/
import Embark.Gateway.Encryptor
import Embark.Net.Ip6Text

namespace Embark

open RuleEncryptor (isV6 mapped mapped_strictMono decodePrefix decodeAddr decodePrefix_slash)

/-! ## Addresses -/

/-- An address with the text that it is written as. -/
inductive AddrText
  | v4 (q : Quad)
  | v6 (x : U128) (s : List Char) (h : IsIp6Text x s)

namespace AddrText

def text : AddrText → List Char
  | v4 q => q.text
  | v6 _ s _ => s

/-- The number of bits. -/
def width : AddrText → Nat
  | v4 _ => 32
  | v6 _ _ _ => 128

/-- The first address of a prefix, as a number of 128 bits. -/
def first : AddrText → Nat → U128
  | v4 q, len => mapped (Block.first q.host len)
  | v6 x _ _, len => Block.first x len

/-- The last address. -/
def last : AddrText → Nat → U128
  | v4 q, len => mapped (Block.last q.host len)
  | v6 x _ _, len => Block.last x len

/-- An IPv6 address whose bytes read the same backwards; nothing about an IPv4 address. -/
def SameReversed : AddrText → Prop
  | v4 _ => True
  | v6 x _ _ => hton128 x = x

section Decoders

variable (pton4 : List Char → BitVec 32) (pton6 : List Char → U128)

/-- `inet_pton` stores the address of the text in network order. -/
def Stored : AddrText → Prop
  | v4 q => pton4 q.text = q.network
  | v6 x s _ => pton6 s = hton128 x

/-- `decode_prefix` returns the ends of the prefix, in order. -/
def PrefixDecoded (t : AddrText) (len : Nat) (n : List Char) : Prop :=
  decodePrefix pton4 pton6 (t.text ++ '/' :: n) = some (t.first len, t.last len) ∧ t.first len ≤ t.last len

/-- `decode_addr` returns what `decode_prefix` does for the prefix of full length, twice. -/
def AddrDecoded (t : AddrText) : Prop := ∀ n, IsNumeral n t.width →
  decodePrefix pton4 pton6 (t.text ++ '/' :: n) =
    some (decodeAddr pton4 pton6 t.text, decodeAddr pton4 pton6 t.text)

end Decoders

/-! ## Texts -/

theorem slash_notMem (t : AddrText) : '/' ∉ t.text := by
  cases t with
  | v4 q => exact q.isText_text.notMem (by decide) (by decide)
  | v6 x s h => exact h.notMem (by decide) (by decide) (by decide)

theorem isV6_v4 (q : Quad) {s : List Char} (hs : ':' ∉ s) : isV6 (q.text ++ s) = false := by
  unfold isV6
  rw [decide_eq_false_iff_not, List.mem_append, not_or]
  exact ⟨q.isText_text.notMem (by decide) (by decide), hs⟩

theorem isV6_v6 {x : U128} {s : List Char} (h : IsIp6Text x s) (t : List Char) : isV6 (s ++ t) = true := by
  unfold isV6
  exact decide_eq_true (List.mem_append_left _ h.colon_mem)

theorem width_le (t : AddrText) : t.width ≤ 128 := by
  cases t with
  | v4 _ => exact (by decide : 32 ≤ 128)
  | v6 _ _ _ => exact le_rfl

theorem width_pos (t : AddrText) : 1 ≤ t.width := by
  cases t with
  | v4 _ => exact (by decide : 1 ≤ 32)
  | v6 _ _ _ => exact (by decide : 1 ≤ 128)

theorem first_le_last (t : AddrText) (len : Nat) : t.first len ≤ t.last len := by
  cases t with
  | v4 q => exact mapped_strictMono.monotone (Block.first_le_last q.host len)
  | v6 x s h => exact Block.first_le_last x len

/-! ## The decoders -/

variable {pton4 : List Char → BitVec 32} {pton6 : List Char → U128} {t : AddrText}

/-- A length within the width is decoded if it is not 0. -/
theorem decodePrefix_eq (h : t.Stored pton4 pton6) {n : List Char} {len : Nat} (hn : IsNumeral n len)
    (hlen : len ≤ t.width) : decodePrefix pton4 pton6 (t.text ++ '/' :: n) =
      if 1 ≤ len then some (t.first len, t.last len) else none := by
  have hwidth := t.width_le
  rw [decodePrefix_slash _ _ t.slash_notMem hn (by omega)]
  cases t with
  | v4 q =>
    have hcolon : ':' ∉ '/' :: n := by
      rw [List.mem_cons, not_or]
      exact ⟨by decide, hn.notMem rfl⟩
    have hle : len ≤ 32 := hlen
    have hstored : pton4 q.text = q.network := h
    simp only [text, isV6_v4 q hcolon, hstored, Quad.ntohl_network, hle, and_true, Bool.false_eq_true, if_false]
    rfl
  | v6 x s hs =>
    have hle : len ≤ 128 := hlen
    have hstored : pton6 s = hton128 x := h
    simp only [text, isV6_v6 hs, hstored, ntoh128_hton128, hle, and_true, if_true]
    rfl

/-- Both ends of the prefix of full length are the address. -/
theorem decodeAddr_eq_iff (h : t.Stored pton4 pton6) :
    t.first t.width = decodeAddr pton4 pton6 t.text ∧ t.last t.width = decodeAddr pton4 pton6 t.text ↔
    t.SameReversed := by
  cases t with
  | v4 q =>
    have hstored : pton4 q.text = q.network := h
    have hv4 : isV6 q.text = false := by
      have h := isV6_v4 q (s := []) List.not_mem_nil
      rwa [List.append_nil] at h
    have haddr : decodeAddr pton4 pton6 q.text = mapped q.host := by
      unfold decodeAddr
      rw [hv4, if_neg Bool.false_ne_true, hstored, Quad.ntohl_network]
      rfl
    refine iff_of_true ⟨?_, ?_⟩ trivial
    · show mapped (Block.first q.host 32) = decodeAddr pton4 pton6 q.text
      rw [haddr, Block.first_full]
    · show mapped (Block.last q.host 32) = decodeAddr pton4 pton6 q.text
      rw [haddr, Block.last_full]
  | v6 x s hs =>
    have hstored : pton6 s = hton128 x := h
    have hv6 : isV6 s = true := by
      have h := isV6_v6 hs []
      rwa [List.append_nil] at h
    have haddr : decodeAddr pton4 pton6 s = hton128 x := by
      unfold decodeAddr
      rw [hv6, if_pos rfl, hstored]
    show Block.first x 128 = decodeAddr pton4 pton6 s ∧ Block.last x 128 = decodeAddr pton4 pton6 s ↔ hton128 x = x
    rw [haddr, Block.first_full, Block.last_full, and_self]
    exact eq_comm

theorem prefixDecoded_iff (h : t.Stored pton4 pton6) {n : List Char} {len : Nat} (hn : IsNumeral n len)
    (hlen : len ≤ t.width) : t.PrefixDecoded pton4 pton6 len n ↔ 1 ≤ len := by
  unfold PrefixDecoded
  rw [decodePrefix_eq h hn hlen]
  by_cases hpos : 1 ≤ len
  · rw [if_pos hpos]
    exact iff_of_true ⟨rfl, t.first_le_last len⟩ hpos
  · rw [if_neg hpos]
    refine iff_of_false ?_ hpos
    rintro ⟨h, -⟩
    cases h

theorem addrDecoded_iff (h : t.Stored pton4 pton6) : t.AddrDecoded pton4 pton6 ↔ t.SameReversed := by
  unfold AddrDecoded
  rw [← decodeAddr_eq_iff h]
  constructor
  · intro hdec
    have hfull := hdec _ (isNumeral_decimal t.width)
    rw [decodePrefix_eq h (isNumeral_decimal t.width) le_rfl, if_pos t.width_pos, Option.some.injEq,
      Prod.mk.injEq] at hfull
    exact hfull
  · rintro ⟨hfirst, hlast⟩ n hn
    rw [decodePrefix_eq h hn le_rfl, if_pos t.width_pos, hfirst, hlast]

/-- A prefix is decoded exactly when its length is not 0, and an address exactly when it is an IPv4
one or its bytes read the same backwards. -/
theorem decoded_iff (h : t.Stored pton4 pton6) {n : List Char} {len : Nat} (hn : IsNumeral n len)
    (hlen : len ≤ t.width) :
    (t.PrefixDecoded pton4 pton6 len n ↔ 1 ≤ len) ∧ (t.AddrDecoded pton4 pton6 ↔ t.SameReversed) :=
  ⟨prefixDecoded_iff h hn hlen, addrDecoded_iff h⟩

theorem decoded_privateNetwork :
    (v4 ⟨10, 0, 0, 0⟩).PrefixDecoded (fun _ => 10) (fun _ => 0) 8 ['8'] ∧
      (v4 ⟨10, 0, 0, 0⟩).AddrDecoded (fun _ => 10) (fun _ => 0) := by
  have hstored : (v4 ⟨10, 0, 0, 0⟩).Stored (fun _ => 10) (fun _ => 0) := rfl
  obtain ⟨hrange, haddr⟩ := decoded_iff hstored (isNumeral_decimal 8) (by decide)
  exact ⟨hrange.2 (by decide), haddr.2 trivial⟩

/-- The loopback address. -/
theorem isIp6Text_loopback : IsIp6Text 1 [':', ':', '1'] := by
  have hone : IsLastWords [1] ['1'] := .one ⟨[1], rfl, le_rfl, by decide, rfl⟩
  exact @IsIp6Text.compressed [] [1] [] ['1'] 7 (.inl ⟨rfl, rfl⟩) (.inr hone) (by decide) rfl

/-- No prefix of length 0 is decoded, and the loopback address is returned with its bytes reversed. -/
theorem decoders_fail :
    (¬ (v4 ⟨0, 0, 0, 0⟩).PrefixDecoded (fun _ => 0) (fun _ => hton128 1) 0 ['0']) ∧
      ¬ (v6 1 _ isIp6Text_loopback).AddrDecoded (fun _ => 0) (fun _ => hton128 1) := by
  have hzero : (v4 ⟨0, 0, 0, 0⟩).Stored (fun _ => 0) (fun _ => hton128 1) := rfl
  have hloop : (v6 1 _ isIp6Text_loopback).Stored (fun _ => 0) (fun _ => hton128 1) := rfl
  constructor
  · rw [show ['0'] = decimal 0 from rfl, prefixDecoded_iff hzero (isNumeral_decimal 0) (by decide)]
    decide
  · rw [addrDecoded_iff hloop]
    show ¬ hton128 1 = 1
    decide

end AddrText

end Embark
