/-
Where the DPI element and the proxy take the payload of a packet to be. The proxy reads the lengths
of both headers and of the datagram; the DPI element takes both headers to be twenty bytes and the
payload to end with the packet. They agree on packets without options and without padding.
-/
import Embark.Dpi.Push
import Embark.Proxy.HttpRequest

namespace Embark

namespace Dpi

namespace MBArkDPI

/-- The offset and the length that `push` passes to the tokenizer, where it calls it. -/
def tokenizerText (p : Packet) : Option (Nat × Nat) :=
  if isHttp p ∧ (minTokenSize : Int) ≤ payloadBytes p then
    some (headerLen, (payloadBytes p % 2 ^ 16).toNat) else none

/-- `push` in terms of its call of the tokenizer. -/
theorem push_eq (aes : Vector Byte 16 → Vector Byte 16) (dividers : Int → Bool) (fuel : Nat) (pool : Pool)
    (p : Packet) :
    push aes dividers fuel pool p =
      match tokenizerText p with
      | none => some ([⟨0, p.data.slice 0 p.length⟩], pool)
      | some (offset, textlen) =>
        match getUserTokensFromBuffer (fun k => p.data (offset + k)) textlen dividers pool with
        | none => none
        | some (ln, pool) =>
          match sendTokens aes (p.data.slice 0 headerLen) fuel ln [] (p.data.slice 0 headerLen) pool with
          | none => none
          | some (sent, seg, pool) => some (sent ++ [⟨1, seg⟩, ⟨0, p.data.slice 0 p.length⟩], pool) := by
  by_cases hhttp : isHttp p
  · by_cases hlen : (minTokenSize : Int) ≤ payloadBytes p
    · have htext : tokenizerText p = some (headerLen, (payloadBytes p % 2 ^ 16).toNat) := if_pos ⟨hhttp, hlen⟩
      rw [htext]
      exact (if_pos hhttp).trans (if_pos hlen)
    · have htext : tokenizerText p = none := if_neg fun h => hlen h.2
      rw [htext]
      exact (if_pos hhttp).trans (if_neg hlen)
  · have htext : tokenizerText p = none := if_neg fun h => hhttp h.1
    rw [htext]
    exact if_neg hhttp

end MBArkDPI

/-! ## Packets with a payload for port 80 -/

/-- `ntohs(ip->ip_len)`. -/
def ipLen (m : Memory) : Nat := (ntohs (m.load 16 2)).toNat

/-- `tcp->th_off` of the TCP header at `tcp`. -/
def thOff (m : Memory) (tcp : Nat) : Nat := ((m (tcp + 12)) >>> 4).toNat

/-- The end of the TCP header of an IPv4 packet. -/
def headersEnd (m : Memory) : Nat := ipHl m 0 * 4 + thOff m (ipHl m 0 * 4) * 4

/-- An IPv4 TCP packet to port 80 whose headers fit its `ip_len` and whose `ip_len` fits the
packet; padding may follow. -/
structure ToWeb (p : Packet) : Prop where
  version : ipV p.data 0 = 4
  protocol : ipP p.data 0 = 6
  ipHeader : 5 ≤ ipHl p.data 0
  tcpHeader : 5 ≤ thOff p.data (ipHl p.data 0 * 4)
  dport : ntohs (p.data.load 16 (ipHl p.data 0 * 4 + 2)) = 80
  headers : headersEnd p.data ≤ ipLen p.data
  length : ipLen p.data ≤ p.length

/-- The offsets of the bytes of a slice, none for no slice. -/
def offsetsOf : Option (Nat × Nat) → List Nat
  | none => []
  | some (offset, len) => List.range' offset len

/-- The tokenizer gets the bytes that the proxy locates; it is not called only when these are too
few for a token. -/
def Agree (p : Packet) : Prop :=
  ∃ located, MBArkProxy.payload p.data = some located ∧
    match MBArkDPI.tokenizerText p with
    | some text => offsetsOf (some text) = offsetsOf located
    | none => (offsetsOf located).length < minTokenSize

section Agree

variable {p : Packet}

/-- The proxy locates the bytes from the end of the TCP header up to `ip_len`. -/
theorem payload_toWeb (hp : ToWeb p) : ∃ located, MBArkProxy.payload p.data = some located ∧
    offsetsOf located = List.range' (headersEnd p.data) (ipLen p.data - headersEnd p.data) := by
  have hheaders := hp.headers
  have htcp : MBArkProxy.tcpHeader p.data = some (some (ipHl p.data 0 * 4,
      (ipLen p.data : Int) - (ipHl p.data 0 : Int) * 4 - (thOff p.data (ipHl p.data 0 * 4) : Int) * 4)) := by
    unfold MBArkProxy.tcpHeader
    simp only [hp.version, hp.protocol, show ¬ (4 = 6) by decide, if_false, if_true]
    rfl
  unfold MBArkProxy.payload
  rw [htcp]
  dsimp only
  by_cases hlt : headersEnd p.data < ipLen p.data
  · have hpos : (0 : Int) < (ipLen p.data : Int) - (ipHl p.data 0 : Int) * 4 -
        (thOff p.data (ipHl p.data 0 * 4) : Int) * 4 := by
      unfold headersEnd at hlt
      omega
    rw [if_pos ⟨hp.dport, hpos⟩]
    refine ⟨_, rfl, ?_⟩
    have hlen : ((ipLen p.data : Int) - (ipHl p.data 0 : Int) * 4 -
        (thOff p.data (ipHl p.data 0 * 4) : Int) * 4).toNat = ipLen p.data - headersEnd p.data := by
      unfold headersEnd
      omega
    rw [hlen]
    rfl
  · -- an empty payload is none
    have hneg : ¬ ((0 : Int) < (ipLen p.data : Int) - (ipHl p.data 0 : Int) * 4 -
        (thOff p.data (ipHl p.data 0 * 4) : Int) * 4) := by
      unfold headersEnd at hlt
      omega
    rw [if_neg fun h => hneg h.2]
    refine ⟨none, rfl, ?_⟩
    rw [Nat.sub_eq_zero_of_le (Nat.le_of_not_lt hlt)]
    rfl

theorem range'_eq_iff {a n b m : Nat} : List.range' a n = List.range' b m ↔ n = m ∧ (m = 0 ∨ a = b) := by
  constructor
  · intro h
    have hlen : n = m := by
      have := congrArg List.length h
      rwa [List.length_range', List.length_range'] at this
    subst hlen
    refine ⟨rfl, ?_⟩
    cases n with
    | zero => exact .inl rfl
    | succ n =>
      rw [List.range'_succ, List.range'_succ] at h
      exact .inr (List.cons.inj h).1
  · rintro ⟨rfl, rfl | rfl⟩
    · rfl
    · rfl

/-- The length as the `uint16_t` of the parameter: the bytes behind the first forty, modulo
`2^16`. -/
theorem textlen_eq (p : Packet) :
    (MBArkDPI.payloadBytes p % 2 ^ 16).toNat = (((p.length : Int) - 40) % 2 ^ 16).toNat := by
  unfold MBArkDPI.payloadBytes headerLen
  congr 1
  have hdvd : ((2 : Int) ^ 16) ∣ ((2 ^ 32 : Nat) : Int) := by decide
  rw [← Int.emod_emod_of_dvd _ hdvd, Int.bmod_emod, Int.emod_emod_of_dvd _ hdvd]
  rfl

/-- The elements agree on the payload of a packet to port 80 exactly when the tokenizer is not
called and the payload has fewer than eight bytes, or it is called and there are no options in
either header and no padding (up to multiples of `2^16` bytes), or it is called with length zero
for an empty payload. -/
theorem agree_iff (hp : ToWeb p) :
    (∃ located, MBArkProxy.payload p.data = some located ∧
      offsetsOf located = List.range' (headersEnd p.data) (ipLen p.data - headersEnd p.data)) ∧
    (Agree p ↔
      if MBArkDPI.isHttp p ∧ 8 ≤ ((p.length : Int) - 40).bmod (2 ^ 32) then
        (headersEnd p.data = 40 ∧ p.length ≡ ipLen p.data [MOD 2 ^ 16]) ∨
          (ipLen p.data = headersEnd p.data ∧ p.length ≡ 40 [MOD 2 ^ 16])
      else ipLen p.data < headersEnd p.data + 8) := by
  obtain ⟨located, hlocated, hoffsets⟩ := payload_toWeb hp
  have hlt : ipLen p.data < 2 ^ 16 := (ntohs (p.data.load 16 2)).isLt
  have hheaders := hp.headers
  have hlength := hp.length
  refine ⟨⟨located, hlocated, hoffsets⟩, ?_⟩
  have hagree : Agree p ↔ match MBArkDPI.tokenizerText p with
      | some text => offsetsOf (some text) = offsetsOf located
      | none => (offsetsOf located).length < minTokenSize := by
    unfold Agree
    rw [hlocated]
    constructor
    · rintro ⟨located', h, hrest⟩
      rwa [← Option.some.inj h] at hrest
    · intro h
      exact ⟨located, rfl, h⟩
  rw [hagree, hoffsets]
  unfold MBArkDPI.tokenizerText
  have hcalled : (MBArkDPI.isHttp p ∧ (minTokenSize : Int) ≤ MBArkDPI.payloadBytes p) ↔
      (MBArkDPI.isHttp p ∧ 8 ≤ ((p.length : Int) - 40).bmod (2 ^ 32)) := Iff.rfl
  by_cases hcall : MBArkDPI.isHttp p ∧ 8 ≤ ((p.length : Int) - 40).bmod (2 ^ 32)
  · rw [if_pos (hcalled.2 hcall), if_pos hcall]
    dsimp only [offsetsOf]
    rw [range'_eq_iff, textlen_eq]
    unfold headerLen Nat.ModEq
    omega
  · rw [if_neg fun h => hcall (hcalled.1 h), if_neg hcall]
    dsimp only
    rw [List.length_range']
    unfold minTokenSize
    omega

end Agree

/-- `slashPacket` meets the condition. -/
theorem agree_iff_slash : Agree MBArkDPI.slashPacket := by
  have hp : ToWeb MBArkDPI.slashPacket := ⟨rfl, rfl, by decide, by decide, rfl, by decide, by decide⟩
  exact ((agree_iff hp).2).2 (by decide)

/-- A request with a timestamp option and the payload `/abcdef/`. -/
def timestampPacket : Packet where
  data := fun i => [
    0x45, 0x00, 0x00, 0x3c, 0x00, 0x01, 0x00, 0x00, 0x40, 0x06, 0x00, 0x00, 0x0a, 0x00, 0x00, 0x01, 0x0a, 0x00,
    0x00, 0x02,
    0xc0, 0x00, 0x00, 0x50, 0x00, 0x00, 0x00, 0x01, 0x00, 0x00, 0x00, 0x01, 0x80, 0x18, 0x20, 0x00, 0x00, 0x00,
    0x00, 0x00, 0x01, 0x01, 0x08, 0x0a, 0x00, 0x00, 0x00, 0x01, 0x00, 0x00, 0x00, 0x00,
    0x2f, 0x61, 0x62, 0x63, 0x64, 0x65, 0x66, 0x2f][i]?.getD 0
  length := 60
  networkHeader := none
  transportHeader := none

/-- The tokenizer gets the option as if it were payload. -/
theorem timestampPacket_disagree : ToWeb timestampPacket ∧
    MBArkDPI.tokenizerText timestampPacket = some (40, 20) ∧
    MBArkProxy.payload timestampPacket.data = some (some (52, 8)) ∧ ¬ Agree timestampPacket := by
  have hpayload : MBArkProxy.payload timestampPacket.data = some (some (52, 8)) := by decide
  have htext : MBArkDPI.tokenizerText timestampPacket = some (40, 20) := by decide
  refine ⟨⟨rfl, rfl, by decide, by decide, rfl, by decide, by decide⟩, htext, hpayload, ?_⟩
  rintro ⟨located, hlocated, h⟩
  rw [hpayload] at hlocated
  obtain rfl := Option.some.inj hlocated
  rw [htext] at h
  exact absurd h (by decide)

end Dpi

end Embark
