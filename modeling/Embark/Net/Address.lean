/-
`IPAddress` and `IP6Address`: the parser for dotted quads, prefix masks, and the two embeddings of
IPv4 addresses into IPv6 addresses. An `IPAddress` holds its number in network byte order, so the
first byte of a quad is the least significant one on a little-endian host.
-/
import Embark.Lib.Block
import Embark.Lib.Text
import Embark.Net.Packet

namespace Embark

/-! ## Parsing -/

/-- The digits of one part of a quad after its first, up to the first value above 255. -/
def parsePart : List Char → Nat → Nat × List Char
  | [], part => (part, [])
  | c :: s, part =>
    if c.isDigit ∧ part ≤ 255 then parsePart s (part * 10 + (c.toNat - '0'.toNat)) else (part, c :: s)

/-- Where the next part starts: at `s` if it is the first, and otherwise behind a dot. -/
def partStart (value : List Byte) (s : List Char) : Option (List Char) :=
  if value = [] then some s
  else match s with
    | '.' :: t => some t
    | _ => none

/-- `IPAddressArg::basic_parse` for the next `n` parts, `value` being those already parsed: the
parts and the characters that are left. -/
def basicParse : Nat → List Char → List Byte → List Byte × List Char
  | 0, s, value => (value, s)
  | n + 1, s, value =>
    match partStart value s with
    | some (c :: t) =>
      if c.isDigit then
        let (part, t) := parsePart t (c.toNat - '0'.toNat)
        if 255 < part then (value, s) else basicParse n t (value ++ [BitVec.ofNat 8 part])
      else (value, s)
    | _ => (value, s)

/-- `IPAddress(str)`: a text that is no quad is looked up by `AddressInfo::query_ip`. -/
def ipAddress (queryIp : List Char → Option (BitVec 32)) (str : List Char) : BitVec 32 :=
  match basicParse 4 str [] with
  | ([a, b, c, d], []) => d ++ c ++ b ++ a
  | _ => (queryIp str).getD 0

/-- `IPAddress::make_prefix`; the assertion on the length is `none`. -/
def makePrefix (prefixLen : Int) : Option (BitVec 32) :=
  if 0 ≤ prefixLen ∧ prefixLen ≤ 32 then
    let umask : BitVec 32 := if 0 < prefixLen then 0xffffffff <<< (32 - prefixLen.toNat) else 0
    some (htonl umask)
  else none

/-- The number in the sixteen bytes of `IP6Address(IPAddress)`: twelve zeros and the address. -/
def ip6Address (x : BitVec 32) : U128 := x.setWidth 128 <<< 96

/-- A dotted quad. -/
structure Quad where
  a : Byte
  b : Byte
  c : Byte
  d : Byte
deriving DecidableEq, Repr

namespace Quad

/-- The text of a quad. -/
def text (q : Quad) : List Char :=
  decimal q.a.toNat ++ '.' :: (decimal q.b.toNat ++ '.' :: (decimal q.c.toNat ++ '.' :: decimal q.d.toNat))

/-- Its number in host order, the first byte most significant. -/
def host (q : Quad) : BitVec 32 := q.a ++ q.b ++ q.c ++ q.d

/-- Its number in network order. -/
def network (q : Quad) : BitVec 32 := q.d ++ q.c ++ q.b ++ q.a

/-! ## Texts of quads are parsed back -/

theorem ntohl_network (q : Quad) : ntohl q.network = q.host := by
  unfold ntohl htonl network host
  apply BitVec.eq_of_getLsbD_eq
  intro i hi
  simp only [BitVec.getLsbD_append, BitVec.getLsbD_extractLsb']
  grind

end Quad

/-! ## Masks in network order -/

theorem ntohl_and (x y : BitVec 32) : ntohl (x &&& htonl y) = ntohl x &&& y := by
  unfold ntohl htonl
  apply BitVec.eq_of_getLsbD_eq
  intro i hi
  simp only [BitVec.getLsbD_append, BitVec.getLsbD_extractLsb', BitVec.getLsbD_and]
  grind

theorem ntohl_or_not (x y : BitVec 32) : ntohl (x ||| ~~~htonl y) = ntohl x ||| ~~~y := by
  unfold ntohl htonl
  apply BitVec.eq_of_getLsbD_eq
  intro i hi
  simp only [BitVec.getLsbD_append, BitVec.getLsbD_extractLsb', BitVec.getLsbD_or, BitVec.getLsbD_not]
  grind

/-- The mask of every length the assertion admits. -/
theorem makePrefix_of_le {len : Nat} (h : len ≤ 32) : makePrefix len = some (htonl (Block.mask 32 len)) := by
  unfold makePrefix Block.mask
  rw [if_pos (by omega)]
  rcases Nat.eq_zero_or_pos len with rfl | hpos
  · rfl
  · rw [if_pos (by omega), Int.toNat_natCast]
    rfl

/-! ## Texts of quads -/

/-- The digits of a number that stays below 256, before a character that is no digit. -/
theorem parsePart_spec {s : List Char} (hs : EndsNumeral s) : ∀ (ds : List Char) (part : Nat),
    (∀ c ∈ ds, c.isDigit) → Nat.ofDigitChars 10 ds part < 256 →
    parsePart (ds ++ s) part = (Nat.ofDigitChars 10 ds part, s)
  | [], part, _, _ => by
    cases s with
    | nil => rfl
    | cons c s =>
      have hc : c.isDigit = false := hs c (by simp)
      simp [parsePart, hc]
  | c :: ds, part, hd, hlt => by
    rw [Nat.ofDigitChars_cons, Nat.mul_comm] at hlt
    have hmono := le_ofDigitChars ds (part * 10 + (c.toNat - '0'.toNat))
    rw [List.cons_append, parsePart, if_pos ⟨hd c (by simp), by omega⟩,
      parsePart_spec hs ds _ (fun c hc => hd c (List.mem_cons_of_mem _ hc)) hlt, Nat.ofDigitChars_cons, Nat.mul_comm]
where
  le_ofDigitChars : ∀ (ds : List Char) (n : Nat), n ≤ Nat.ofDigitChars 10 ds n
    | [], n => by simp
    | c :: ds, n => by
      rw [Nat.ofDigitChars_cons]
      exact le_trans (by omega) (le_ofDigitChars ds _)

/-- One part of a quad. -/
theorem basicParse_numeral {n : Nat} {x : Byte} {ds s t : List Char} {value : List Byte} (hds : IsNumeral ds x.toNat)
    (hs : EndsNumeral s) (ht : partStart value t = some (ds ++ s)) :
    basicParse (n + 1) t value = basicParse n s (value ++ [x]) := by
  obtain ⟨c, ds', rfl, hc⟩ := hds.exists_cons
  have hval : Nat.ofDigitChars 10 ds' (c.toNat - '0'.toNat) = x.toNat := by
    have h := hds.value
    rwa [Nat.ofDigitChars_cons, Nat.mul_zero, Nat.zero_add] at h
  have hdigits : ∀ c ∈ ds', c.isDigit := fun e he => hds.isDigit e (List.mem_cons_of_mem _ he)
  have hpart := parsePart_spec hs ds' (c.toNat - '0'.toNat) hdigits (by rw [hval]; exact x.isLt)
  rw [hval] at hpart
  have hx := x.isLt
  rw [basicParse, ht, List.cons_append]
  simp only [hc, if_true, hpart]
  rw [if_neg (by omega), BitVec.ofNat_toNat, BitVec.setWidth_eq]

theorem endsNumeral_dot {s : List Char} : EndsNumeral ('.' :: s) := endsNumeral_cons rfl

/-- A text of a quad: numerals of its bytes, joined by dots. -/
def Quad.IsText (q : Quad) (s : List Char) : Prop :=
  ∃ a b c d, IsNumeral a q.a.toNat ∧ IsNumeral b q.b.toNat ∧ IsNumeral c q.c.toNat ∧ IsNumeral d q.d.toNat ∧
    s = a ++ '.' :: (b ++ '.' :: (c ++ '.' :: d))

namespace Quad.IsText

variable {q : Quad} {s : List Char}

theorem ipAddress (h : q.IsText s) (queryIp : List Char → Option (BitVec 32)) :
    ipAddress queryIp s = q.network := by
  obtain ⟨a, b, c, d, ha, hb, hc, hd, rfl⟩ := h
  have hparse : basicParse 4 (a ++ '.' :: (b ++ '.' :: (c ++ '.' :: d))) [] = ([q.a, q.b, q.c, q.d], []) := by
    rw [basicParse_numeral ha endsNumeral_dot rfl, basicParse_numeral hb endsNumeral_dot rfl,
      basicParse_numeral hc endsNumeral_dot rfl, basicParse_numeral hd endsNumeral_nil (by rw [List.append_nil]; rfl)]
    rfl
  unfold Embark.ipAddress
  rw [hparse]
  rfl

/-- No text of a quad contains a character that is neither a digit nor a dot. -/
theorem notMem (h : q.IsText s) {c : Char} (hd : c.isDigit = false) (hc : c ≠ '.') : c ∉ s := by
  obtain ⟨a, b, c', d, ha, hb, hc', hd', rfl⟩ := h
  simp only [List.mem_append, List.mem_cons, not_or]
  exact ⟨ha.notMem hd, hc, hb.notMem hd, hc, hc'.notMem hd, hc, hd'.notMem hd⟩

end Quad.IsText

theorem Quad.isText_text (q : Quad) : q.IsText q.text :=
  ⟨_, _, _, _, isNumeral_decimal _, isNumeral_decimal _, isNumeral_decimal _, isNumeral_decimal _, rfl⟩

theorem ipAddress_text (queryIp : List Char → Option (BitVec 32)) (q : Quad) :
    ipAddress queryIp q.text = q.network := q.isText_text.ipAddress queryIp

end Embark
