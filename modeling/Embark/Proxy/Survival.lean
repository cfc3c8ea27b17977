/-
`MBArkProxy::push` with its accesses checked: a read outside the packet's data, a write outside
the packet or the buffer and a failing assertion are `none`. Of the packets that carry a TCP
header to port 80 it survives exactly those that `Survives` describes.
-/
import Embark.Proxy.Codec
import Embark.Proxy.Push
import Embark.Proxy.Reads

namespace Embark

namespace MBArkProxy

/-! ## The element with checked accesses -/

/-- The header fields that are read before the payload is looked at, as offsets and sizes. -/
def headerReads (m : Memory) : List (Nat × Nat) :=
  (0, 1) ::
    if ipV m 0 = 6 then
      (6, 1) ::
        if ip6Nxt m 0 = 60 then [(4, 2), (96 + 12, 1), (41, 1)]
        else if ip6Nxt m 0 = 6 then [(4, 2), (40 + 12, 1)]
        else []
    else if ipV m 0 = 4 then
      (9, 1) :: if ipP m 0 = 6 then [(2, 2), (ipHl m 0 * 4 + 12, 1)] else []
    else []

/-- Where the payload starts, by the data offset. -/
def payloadStart (m : Memory) (tcp : Nat) : Nat := tcp + (m (tcp + 12) >>> 4).toNat * 4

/-- `updateChecksum` with checked accesses: the words that are summed, the addresses, and for `V4`
the IPv4 header, whose options are looked through for a source route. -/
def updateChecksumChecked (ipv4 : Bool) (p : Packet) (tcp : Nat) (m : Memory) : Option Memory :=
  if thSum tcp + 2 ≤ p.length then
    if ipv4 then
      p.transportHeader.bind fun (th : Nat) =>
        if (p.length ≤ th ∨ tcp + (p.length - th) ≤ p.length) ∧ max 20 (ipHl m 0 * 4) ≤ p.length then
          updateChecksum ipv4 p tcp m
        else none
    else
      let plen := (ntohs ((m.store (thSum tcp) (0 : BitVec 16)).load 16 4)).toNat
      if 40 ≤ p.length ∧ (plen = 0 ∨ tcp + plen ≤ p.length) then updateChecksum ipv4 p tcp m else none
  else none

/-- What `push` does with the url of a payload, if it has one. -/
def rewriteChecked (ipv4 : Bool) (enc : List Byte → List Byte) (p : Packet) (tcp pData dataLen : Nat) :
    Option (List Byte) → Option Memory
  | none => some p.data
  | some url =>
    if pData + (enc url).length + 8 ≤ p.length then
      (rewritePayload enc p.data pData dataLen url).bind (updateChecksumChecked ipv4 p tcp)
    else none

/-- `push` with checked accesses. -/
def pushChecked (ipv4 : Bool) (enc : List Byte → List Byte) (p : Packet) : Option Memory :=
  if ∀ r ∈ headerReads p.data, r.1 + r.2 ≤ p.length then
    match tcpHeader p.data with
    | none => none
    | some none => some p.data
    | some (some (tcp, dataLen)) =>
      if tcp + 4 ≤ p.length then
        if ntohs (p.data.load 16 (tcp + 2)) = 80 ∧ 0 < dataLen then
          (parseHttpReqChecked p (payloadStart p.data tcp) dataLen.toNat).bind
            (rewriteChecked ipv4 enc p tcp (payloadStart p.data tcp) dataLen.toNat)
        else some p.data
      else none
  else none

theorem updateChecksum_of_checked {ipv4 : Bool} {p : Packet} {tcp : Nat} {m m' : Memory}
    (h : updateChecksumChecked ipv4 p tcp m = some m') : updateChecksum ipv4 p tcp m = some m' := by
  unfold updateChecksumChecked at h
  split at h
  · cases ipv4 with
    | true =>
      obtain ⟨th, -, h⟩ := Option.bind_eq_some_iff.1 h
      split at h
      · exact h
      · cases h
    | false =>
      simp only [Bool.false_eq_true, if_false] at h
      split at h
      · exact h
      · cases h
  · cases h

/-- Where the checked element gets through, `push` does the same. -/
theorem push_of_checked {ipv4 : Bool} {enc : List Byte → List Byte} {p : Packet} {m' : Memory}
    (h : pushChecked ipv4 enc p = some m') : push ipv4 enc p = some m' := by
  unfold pushChecked at h
  split_ifs at h with hreads
  cases hheader : tcpHeader p.data with
  | none =>
    rw [hheader] at h
    cases h
  | some header =>
    cases header with
    | none =>
      rw [hheader] at h
      unfold push rewrite
      rw [hheader]
      exact h
    | some header =>
      obtain ⟨tcp, dataLen⟩ := header
      simp only [hheader] at h
      unfold push rewrite
      simp only [hheader]
      split_ifs at h with hport hrequest
      · obtain ⟨r, hr, h⟩ := Option.bind_eq_some_iff.1 h
        have hparse := parseHttpReq_of_checked hr
        simp only [payloadStart] at hparse h
        simp only [if_pos hrequest, rewriteRequest, hparse]
        cases r with
        | none => exact h
        | some url =>
          simp only [rewriteChecked] at h
          split_ifs at h with hroom
          obtain ⟨m, hm, h⟩ := Option.bind_eq_some_iff.1 h
          simp only [hm]
          exact updateChecksum_of_checked h
      · simp only [if_neg hrequest]
        exact h

/-! ## Packets with a TCP header -/

/-- Where the TCP header of a packet is, by its IP header: behind the IPv4 header, behind the IPv6
header, behind one extension header, or behind other extension headers. -/
inductive TcpAt (m : Memory) : Nat → Prop
  | ipv4 : ipV m 0 = 4 → ipP m 0 = 6 → TcpAt m (ipHl m 0 * 4)
  | ipv6 : ipV m 0 = 6 → ip6Nxt m 0 = 6 → TcpAt m 40
  | options : ipV m 0 = 6 → ip6Nxt m 0 = 60 → TcpAt m (40 + 8 * ((m 41).toNat + 1))
  | chain {tcp : Nat} : ipV m 0 = 6 → ip6Nxt m 0 ≠ 6 → ip6Nxt m 0 ≠ 60 → 40 ≤ tcp → TcpAt m tcp

/-- The packet carries a TCP header to port 80 at `tcp`; nothing is said of its other fields. -/
structure Carries (p : Packet) (tcp : Nat) : Prop where
  header : TcpAt p.data tcp
  ip : 20 ≤ p.length
  inside : tcp + 20 ≤ p.length
  port : ntohs (p.data.load 16 (tcp + 2)) = 80

/-- The length of the payload by the length fields; none behind headers `push` does not know. -/
def payloadLength (m : Memory) (tcp : Nat) : Int :=
  let off : Int := (m (tcp + 12) >>> 4).toNat
  if ipV m 0 = 4 then (ntohs (m.load 16 2)).toNat - ipHl m 0 * 4 - off * 4
  else if ip6Nxt m 0 = 60 then (ntohs (m.load 16 4)).toNat - off * 4 - 56
  else if ip6Nxt m 0 = 6 then (ntohs (m.load 16 4)).toNat - off * 4
  else 0

/-- The segment that is summed lies in the packet: for `V4` from the TCP header as far as the
packet reaches behind the transport header; otherwise as long as the length field of the IPv6
header says, once a url of `k` characters has been written. -/
def ChecksumInside (ipv4 : Bool) (p : Packet) (tcp len k : Nat) : Prop :=
  if ipv4 then ∃ th, p.transportHeader = some th ∧ (p.length ≤ th ∨ tcp ≤ th)
  else
    let m := p.data.writeBytes (payloadStart p.data tcp) (toLE 4 k ++ toLE 4 (len - k - 8))
    let plen := (ntohs (m.load 16 4)).toNat
    40 ≤ p.length ∧ (plen = 0 ∨ tcp + plen ≤ p.length)

/-- The packets `push` survives. -/
structure Survives (ipv4 : Bool) (p : Packet) (tcp : Nat) : Prop where
  option : ipV p.data 0 = 6 → ip6Nxt p.data 0 = 60 → p.data 41 = 6
  request : 0 < payloadLength p.data tcp →
    RequestSafe p (payloadStart p.data tcp) (payloadLength p.data tcp).toNat
  url : 0 < payloadLength p.data tcp →
    ∀ k, UrlLength p (payloadStart p.data tcp) (payloadLength p.data tcp).toNat k →
      k + 8 ≤ 2048 ∧ k + 8 ≤ (payloadLength p.data tcp).toNat ∧ payloadStart p.data tcp + k + 8 ≤ p.length ∧
        ChecksumInside ipv4 p tcp (payloadLength p.data tcp).toNat k

section Survives

variable {p : Packet} {tcp : Nat}

/-- The header of a packet with a TCP header is read inside it, and taken for what it is, unless
its extension header has another length. -/
theorem Carries.tcpHeader_eq (h : Carries p tcp)
    (hoption : ipV p.data 0 = 6 → ip6Nxt p.data 0 = 60 → p.data 41 = 6) :
    (∀ r ∈ headerReads p.data, r.1 + r.2 ≤ p.length) ∧
      (tcpHeader p.data = some (some (tcp, payloadLength p.data tcp)) ∨
        tcpHeader p.data = some none ∧ payloadLength p.data tcp = 0) := by
  have h20 := h.ip
  have hin := h.inside
  unfold headerReads tcpHeader payloadLength
  cases h.header with
  | ipv4 hv hproto =>
    simp only [hv, hproto]
    simp
    omega
  | ipv6 hv hnxt =>
    simp only [hv, hnxt]
    simp
    omega
  | options hv hnxt =>
    have h41 := hoption hv hnxt
    have h6 : (6 : Byte).toNat = 6 := rfl
    simp only [hv, hnxt, h41, h6] at hin ⊢
    simp
    omega
  | chain hv h6 h60 h40 =>
    simp only [hv, h6, h60]
    simp
    omega

/-- Another length of the extension header fails the assertion. -/
theorem tcpHeader_badOption {m : Memory} (hv : ipV m 0 = 6) (hnxt : ip6Nxt m 0 = 60) (h41 : m 41 ≠ 6) :
    tcpHeader m = none := by
  unfold tcpHeader
  simp only [hv, hnxt, h41]
  simp

/-- The payload of a request to port 80 does not start at the first byte: that would make its
`"T "` the port. -/
theorem Carries.start_pos (h : Carries p tcp) (hstart : startsWith p.data (payloadStart p.data tcp) getLit) :
    0 < payloadStart p.data tcp := by
  by_contra hzero
  have hz : payloadStart p.data tcp = 0 := by omega
  have htcp : tcp = 0 := by
    unfold payloadStart at hz
    omega
  rw [hz] at hstart
  have hslice : p.data.slice 0 4 = getLit := eq_of_beq hstart
  simp only [Memory.slice_succ, getLit, List.cons.injEq] at hslice
  have hport := h.port
  rw [htcp, ← BitVec.toNat_inj, ntohs_toNat, load16_toNat, hslice.2.2.1, hslice.2.2.2.1] at hport
  simp at hport

/-- The header length in the first byte does not reach out of the packet. -/
theorem Carries.ipHl_le (h : Carries p tcp) : max 20 (ipHl p.data 0 * 4) ≤ p.length := by
  have h20 := h.ip
  have hin := h.inside
  have hhl : ipHl p.data 0 ≤ 15 := by
    unfold ipHl
    rw [BitVec.toNat_and]
    exact Nat.and_le_right
  cases h.header <;> omega

variable {enc : List Byte → List Byte} {ipv4 : Bool} {m : Memory} {len : Nat} {url : List Byte}

/-- A rewritten payload, with the url as long as its encryption. -/
theorem rewritePayload_some_iff : (rewritePayload enc p.data (payloadStart p.data tcp) len url).isSome ↔
    (enc url).length + 8 ≤ 2048 ∧ (enc url).length + 8 ≤ len := by
  unfold rewritePayload
  simp only
  split_ifs with h
  · exact ⟨fun _ => h, fun _ => rfl⟩
  · exact ⟨fun h' => by simp at h', fun h' => absurd h' h⟩

/-- A payload that does not start at the first byte leaves the header length as it is. -/
theorem ipHl_writeBytes (m : Memory) {a : Nat} (hpos : 0 < a) (bs : List Byte) :
    ipHl (m.writeBytes a bs) 0 = ipHl m 0 := by
  unfold ipHl
  rw [Memory.writeBytes_of_disjoint _ (.inl hpos)]

/-- Of a payload only its first bytes can lie where the payload length of the packet is. -/
theorem load_plen (m : Memory) {a : Nat} (tcp : Nat) {lens url : List Byte} (hlens : 6 ≤ a + lens.length) :
    ((m.writeBytes a (lens ++ url)).store (thSum tcp) (0 : BitVec 16)).load 16 4 = (m.writeBytes a lens).load 16 4 := by
  unfold Memory.load
  congr 1
  refine Memory.loadLE_congr fun i h1 h2 => ?_
  rw [Memory.store_of_disjoint _ _ (.inl (by unfold thSum; omega)), Memory.writeBytes_append_left _ (by omega)]

theorem updateChecksumChecked_isSome_iff (h : Carries p tcp) (hpos : 0 < payloadStart p.data tcp)
    (hm : rewritePayload enc p.data (payloadStart p.data tcp) len url = some m) :
    (updateChecksumChecked ipv4 p tcp m).isSome ↔ ChecksumInside ipv4 p tcp len (enc url).length := by
  have hin := h.inside
  unfold rewritePayload at hm
  simp only at hm
  split_ifs at hm
  cases hm
  unfold updateChecksumChecked ChecksumInside
  rw [if_pos (by unfold thSum; omega)]
  cases ipv4 with
  | true =>
    have hsome : ∀ m, (updateChecksum true p tcp m).isSome ↔ p.transportHeader.isSome := by
      intro m
      simp [updateChecksum]
    simp only [if_pos, ipHl_writeBytes p.data hpos, h.ipHl_le, and_true]
    cases hth : p.transportHeader with
    | none => simp
    | some th =>
      rw [hth] at hsome
      simp only [Option.bind_some, Option.some.injEq, exists_eq_left']
      split_ifs with hseg
      · exact ⟨fun _ => by omega, fun _ => (hsome _).2 rfl⟩
      · exact ⟨fun h => by simp at h, fun _ => by omega⟩
  | false =>
    have hload := @load_plen p.data (payloadStart p.data tcp) tcp
      (toLE 4 (enc url).length ++ toLE 4 (len - (enc url).length - 8)) (enc url) (by simp)
    simp only [Bool.false_eq_true, if_false, hload]
    split_ifs with hseg
    · exact ⟨fun _ => hseg, fun _ => rfl⟩
    · exact ⟨fun h => by simp at h, fun h => absurd h hseg⟩

theorem rewriteChecked_isSome_iff (h : Carries p tcp) (hpos : 0 < payloadStart p.data tcp) :
    (rewriteChecked ipv4 enc p tcp (payloadStart p.data tcp) len (some url)).isSome ↔
      (enc url).length + 8 ≤ 2048 ∧ (enc url).length + 8 ≤ len ∧
        payloadStart p.data tcp + (enc url).length + 8 ≤ p.length ∧
        ChecksumInside ipv4 p tcp len (enc url).length := by
  simp only [rewriteChecked]
  split_ifs with hlen
  · cases hm : rewritePayload enc p.data (payloadStart p.data tcp) len url with
    | none =>
      have hno :=
        rewritePayload_some_iff.not.1 (show ¬(rewritePayload enc p.data (payloadStart p.data tcp) len url).isSome by
        simp [hm])
      exact ⟨fun h => by simp at h, fun h => absurd ⟨h.1, h.2.1⟩ hno⟩
    | some m =>
      obtain ⟨h1, h2⟩ :=
        rewritePayload_some_iff.1 (show (rewritePayload enc p.data (payloadStart p.data tcp) len url).isSome by
        simp [hm])
      rw [Option.bind_some, updateChecksumChecked_isSome_iff h hpos hm]
      exact ⟨fun h => ⟨h1, h2, hlen, h⟩, fun h => h.2.2.2⟩
  · exact ⟨fun h => by simp at h, fun h => absurd h.2.2.1 hlen⟩

/-- `push` on a packet with a payload to look at. -/
theorem request_survives_iff (henc : ∀ u, (enc u).length = u.length) (h : Carries p tcp) :
    ((parseHttpReqChecked p (payloadStart p.data tcp) len).bind
      (rewriteChecked ipv4 enc p tcp (payloadStart p.data tcp) len)).isSome ↔
      RequestSafe p (payloadStart p.data tcp) len ∧ ∀ k, UrlLength p (payloadStart p.data tcp) len k →
        k + 8 ≤ 2048 ∧ k + 8 ≤ len ∧ payloadStart p.data tcp + k + 8 ≤ p.length ∧
        ChecksumInside ipv4 p tcp len k := by
  constructor
  · intro hsome
    obtain ⟨r, hr⟩ : ∃ r, parseHttpReqChecked p (payloadStart p.data tcp) len = some r := by
      rw [← Option.isSome_iff_exists]
      exact Option.isSome_of_isSome_bind hsome
    have hsafe : RequestSafe p (payloadStart p.data tcp) len := parseChecked_isSome_iff.1 (by rw [hr]; rfl)
    refine ⟨hsafe, fun k hk => ?_⟩
    obtain ⟨url, hurl, rfl⟩ := (urlLength_iff hsafe).1 hk
    rw [hurl, Option.bind_some, rewriteChecked_isSome_iff h (h.start_pos hk.1), henc] at hsome
    exact hsome
  · rintro ⟨hsafe, hurls⟩
    obtain ⟨r, hr⟩ := Option.isSome_iff_exists.1 (parseChecked_isSome_iff.2 hsafe)
    rw [hr, Option.bind_some]
    cases r with
    | none => rfl
    | some url =>
      have hk : UrlLength p (payloadStart p.data tcp) len url.length := (urlLength_iff hsafe).2 ⟨url, hr, rfl⟩
      rw [rewriteChecked_isSome_iff h (h.start_pos hk.1), henc]
      exact hurls _ hk

/-- Of the packets that carry a TCP header to port 80, `push` survives exactly those described. -/
theorem pushChecked_survives_iff (henc : ∀ u, (enc u).length = u.length) (h : Carries p tcp) :
    (pushChecked ipv4 enc p).isSome ↔ Survives ipv4 p tcp := by
  by_cases hoption : ipV p.data 0 = 6 → ip6Nxt p.data 0 = 60 → p.data 41 = 6
  · obtain ⟨hreads, hheader | ⟨hheader, hlen⟩⟩ := h.tcpHeader_eq hoption
    · have hin := h.inside
      unfold pushChecked
      rw [if_pos hreads, hheader]
      simp only [h.port, true_and, if_pos (show tcp + 4 ≤ p.length by omega)]
      split_ifs with hpos
      · rw [request_survives_iff henc h]
        exact ⟨fun h => ⟨hoption, fun _ => h.1, fun _ => h.2⟩, fun h => ⟨h.request hpos, h.url hpos⟩⟩
      · exact ⟨fun _ => ⟨hoption, fun h => absurd h hpos, fun h => absurd h hpos⟩, fun _ => rfl⟩
    · unfold pushChecked
      rw [if_pos hreads, hheader]
      exact ⟨fun _ => ⟨hoption, fun h => by omega, fun h => by omega⟩, fun _ => rfl⟩
  · have hnone : pushChecked ipv4 enc p = none := by
      push Not at hoption
      unfold pushChecked
      rw [tcpHeader_badOption hoption.1 hoption.2.1 hoption.2.2]
      split_ifs <;> rfl
    rw [hnone]
    exact ⟨fun h => by simp at h, fun h => absurd h.option hoption⟩

end Survives

/-! ## Two packets -/

open Proxy (cfbBlock length_cfbBlock request)

/-- A TCP segment from 10.0.0.1 to port 80 of 10.0.0.2, of at most 215 bytes of payload. -/
def tcp4 (payload : List Byte) : Packet where
  data := fun i => (
    [0x45, 0, 0, BitVec.ofNat 8 (40 + payload.length), 0, 1, 0, 0, 64, 6, 0, 0, 10, 0, 0, 1, 10, 0, 0, 2,
      0xc0, 0, 0, 80, 0, 0, 0, 1, 0, 0, 0, 1, 0x50, 0x18, 0x20, 0, 0, 0, 0, 0] ++ payload)[i]?.getD 0
  length := 40 + payload.length
  networkHeader := some 0
  transportHeader := some 20

theorem tcp4_carries (payload : List Byte) : Carries (tcp4 payload) 20 where
  header := by
    have h0 : (tcp4 payload).data 0 = 0x45 := rfl
    have h9 : (tcp4 payload).data 9 = 6 := rfl
    have hv : ipV (tcp4 payload).data 0 = 4 := by
      rw [ipV, h0]
      rfl
    have hhl : ipHl (tcp4 payload).data 0 = 5 := by
      rw [ipHl, h0]
      rfl
    have h := TcpAt.ipv4 hv h9
    rwa [hhl] at h
  ip := by simp [tcp4]; omega
  inside := by simp [tcp4]
  port := by
    have h22 : (tcp4 payload).data (20 + 2) = 0 := rfl
    have h23 : (tcp4 payload).data (20 + 2 + 1) = 80 := rfl
    rw [← BitVec.toNat_inj, ntohs_toNat, load16_toNat, h22, h23]
    rfl

theorem pushChecked_survives_iff_request : Survives true (tcp4 request) 20 :=
  (pushChecked_survives_iff length_cfbBlock (tcp4_carries request)).1 (by decide +kernel)

/-- `GET b.com/ `, the first segment of a request that is cut behind its target. -/
def cutRequest : List Byte := request.take 11

/-- The url of that segment does not fit its payload with the two lengths. -/
theorem cutRequest_fails : Carries (tcp4 cutRequest) 20 ∧ pushChecked true cfbBlock (tcp4 cutRequest) = none :=
  ⟨tcp4_carries cutRequest, by decide +kernel⟩

end MBArkProxy

end Embark
