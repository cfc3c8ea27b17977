/-
`AESForward::simple_action`: a packet gets an IP and a UDP header in front, and what follows them is
encrypted in place through a buffer on the stack. The length of what is encrypted adds the size of
the IP header where it should take it off, so forty bytes behind the packet are read and written;
the headers and their checksums come out right.
-/
import Embark.Net.Checksum

namespace Embark

namespace AESForward

/-- `sizeof(click_ip)`. -/
def ipSize : Nat := 20

/-- `sizeof(click_udp)`. -/
def udpSize : Nat := 8

/-- `sizeof(encrypted)`. -/
def encryptedSize : Nat := 4096

/-- The cipher context after `EVP_EncryptInit`: what `EVP_EncryptUpdate` emits for a plaintext and
`EVP_EncryptFinal` after it, with their documented lengths. -/
structure CipherContext where
  update : List Byte → List Byte
  final : List Byte → List Byte
  length_update : ∀ plaintext, (update plaintext).length ≤ plaintext.length + 15
  length_final : ∀ plaintext, (final plaintext).length ≤ 16

/-- The members of the element. -/
structure Members where
  saddr : BitVec 32
  daddr : BitVec 32
  sport : BitVec 16
  dport : BitVec 16
  useDstAnno : Bool
  id : BitVec 32

/-- The packet returned, its destination annotation and the members after the call, and the offsets
at which the packet's buffer was read as plaintext and written by the copy. -/
structure Outcome where
  packet : Packet
  dstAnno : BitVec 32
  members : Members
  plaintext : List Nat
  copied : List Nat

/-- `p->push(len)`, with what was in the headroom. -/
def push (headroom : Memory) (len : Nat) (p : Packet) : Packet where
  data := fun i => if i < len then headroom i else p.data (i - len)
  length := p.length + len
  networkHeader := p.networkHeader.map (· + len)
  transportHeader := p.transportHeader.map (· + len)

/-- The destination of the new header. -/
def destination (e : Members) (dstAnno : BitVec 32) : BitVec 32 := if e.useDstAnno then dstAnno else e.daddr

/-- The stores to the IP header of a packet of `len` bytes, up to `ip_sum = 0`. -/
def writeIpFields (e : Members) (dstAnno : BitVec 32) (len : Nat) (m : Memory) : Memory :=
  let m := m.store 0 (0x45 : Byte)
  let m := m.store 2 (htons (BitVec.ofNat 16 len))
  let m := m.store 4 (htons (e.id.setWidth 16))
  let m := m.store 9 (17 : Byte)
  let m := m.store 12 e.saddr
  let m := m.store 16 (destination e dstAnno)
  let m := m.store 1 (0 : Byte)
  let m := m.store 6 (0 : BitVec 16)
  let m := m.store 8 (250 : Byte)
  m.store 10 (0 : BitVec 16)

/-- The IP header with its checksum. -/
def writeIpHeader (e : Members) (dstAnno : BitVec 32) (len : Nat) (m : Memory) : Memory :=
  let m := writeIpFields e dstAnno len m
  m.store 10 (inCksum m 0 ipSize)

/-- The stores to the UDP header of a packet of `len` bytes, up to `uh_sum = 0`. -/
def writeUdpFields (e : Members) (len : Nat) (m : Memory) : Memory :=
  let m := m.store 20 e.sport
  let m := m.store 22 e.dport
  let m := m.store 24 (htons (BitVec.ofNat 16 (len - ipSize)))
  m.store 26 (0 : BitVec 16)

/-- The UDP header with its checksum; `len` is a `uint16_t`. -/
def writeUdpHeader (e : Members) (len : Nat) (m : Memory) : Memory :=
  let m := writeUdpFields e len m
  let len : Int := (BitVec.ofNat 16 (len - ipSize)).toNat
  m.store 26 (inCksumPseudohdr (inCksum m 20 len) m 0 len)

/-- The offset of the payload, behind both headers. -/
def payloadStart : Nat := ipSize + udpSize

/-- `p->length() - sizeof(click_udp) + sizeof(click_ip)`. -/
def cipherLen (len : Nat) : Nat := len - udpSize + ipSize

/-- The encryption of a packet of `len` bytes and the copy, with what `encrypted` holds before;
`none` where `encrypted` is written or read behind its end. -/
def encryptPayload (ctx : CipherContext) (encrypted : Memory) (len : Nat) (m : Memory) : Option Memory :=
  let plaintext := m.slice payloadStart (cipherLen len)
  let first := ctx.update plaintext
  let last := ctx.final plaintext
  if first.length + last.length ≤ encryptedSize ∧ cipherLen len ≤ encryptedSize then
    let encrypted := (encrypted.writeBytes 0 first).writeBytes first.length last
    some (m.writeBytes payloadStart (encrypted.slice 0 (cipherLen len)))
  else none

/-- `simple_action`. -/
def simpleAction (ctx : CipherContext) (e : Members) (headroom encrypted : Memory) (dstAnno : BitVec 32)
    (p : Packet) : Option Outcome :=
  let p := push headroom (udpSize + ipSize) p
  let m := writeIpHeader e dstAnno p.length p.data
  let p := p.setNetworkHeader ipSize
  (encryptPayload ctx encrypted p.length m).map fun m => {
    packet := { p with data := writeUdpHeader e p.length m }
    dstAnno := destination e dstAnno
    members := { e with id := e.id + 1 }
    plaintext := List.range' payloadStart (cipherLen p.length)
    copied := List.range' payloadStart (cipherLen p.length) }

/-! ## The headers -/

/-- The lengths in the headers are those of a packet with `n` bytes behind them, and both checksums
verify. -/
structure ValidDatagram (m : Memory) (n : Nat) : Prop where
  ipLen : (ntohs (m.load 16 2)).toNat = n + 28
  udpLen : (ntohs (m.load 16 24)).toNat = n + 8
  ipSum : ValidHeaderChecksum m 0 20
  udpSum : ValidTransportChecksum 17 m 12 16 4 20 (n + 8)

/-- The call returns, has read and written exactly the bytes of the packet behind the new headers,
and the packet is a valid datagram. -/
def StaysInside (ctx : CipherContext) (e : Members) (headroom encrypted : Memory) (dstAnno : BitVec 32) (p : Packet) :
    Prop :=
  ∃ r, simpleAction ctx e headroom encrypted dstAnno p = some r ∧ r.plaintext = List.range' 28 p.length ∧
    r.copied = List.range' 28 p.length ∧ ValidDatagram r.packet.data p.length

section Headers

variable {e : Members} {dstAnno : BitVec 32} {len : Nat} {m m' : Memory}

theorem writeUdpHeader_of_lt {i : Nat} (hi : i < 20) : writeUdpHeader e len m i = m i := by
  unfold writeUdpHeader writeUdpFields
  dsimp only
  simp (disch := omega) only [Memory.store_of_disjoint]

/-- The first byte and the protocol. -/
theorem writeIpHeader_bytes : writeIpHeader e dstAnno len m 0 = 0x45 ∧ writeIpHeader e dstAnno len m 9 = 17 := by
  unfold writeIpHeader writeIpFields
  dsimp only
  constructor
  · simp (disch := omega) only [Memory.store_of_disjoint]
    rfl
  · simp (disch := omega) only [Memory.store_of_disjoint]
    rfl

theorem writeIpHeader_len : (writeIpHeader e dstAnno len m).load 16 2 = htons (BitVec.ofNat 16 len) := by
  unfold writeIpHeader writeIpFields
  dsimp only
  simp (disch := omega) only [Memory.load_store_of_disjoint]
  exact Memory.load_store _ (by decide) _ _

theorem writeIpHeader_sum : ValidHeaderChecksum (writeIpHeader e dstAnno len m) 0 20 := by
  have hzero : writeIpFields e dstAnno len m = (writeIpFields e dstAnno len m).store (0 + 2 * 5) (0 : BitVec 16) := by
    unfold writeIpFields
    exact (Memory.store_store _ 10 (0 : BitVec 16) 0).symm
  exact validHeaderChecksum_inCksum hzero (show 2 * 5 + 2 ≤ ipSize by decide) (by decide)

theorem writeUdpHeader_len :
    (writeUdpHeader e len m).load 16 24 = htons (BitVec.ofNat 16 (len - ipSize)) := by
  unfold writeUdpHeader writeUdpFields
  dsimp only
  simp (disch := omega) only [Memory.load_store_of_disjoint]
  exact Memory.load_store _ (by decide) _ _

/-- Behind a header without options the UDP checksum verifies. -/
theorem writeUdpHeader_sum (hhl : m 0 = 0x45) (hproto : m 9 = 17) (hlen : 28 ≤ len) (hlt : len < 2 ^ 16) :
    ValidTransportChecksum 17 (writeUdpHeader e len m) 12 16 4 20 (len - ipSize) := by
  have hbyte : ∀ i < 20, writeUdpFields e len m i = m i := by
    intro i hi
    unfold writeUdpFields
    simp (disch := omega) only [Memory.store_of_disjoint]
  have hzero : writeUdpFields e len m = (writeUdpFields e len m).store (20 + 2 * 3) (0 : BitVec 16) := by
    unfold writeUdpFields
    exact (Memory.store_store _ 26 (0 : BitVec 16) 0).symm
  have hdst : pseudoDst (writeUdpFields e len m) 0 = 16 := by
    have hhl5 : ipHl (writeUdpFields e len m) 0 = 5 := by
      unfold ipHl
      rw [hbyte 0 (by omega), hhl]
      rfl
    unfold pseudoDst
    rw [if_pos hhl5]
  have hp : ipP (writeUdpFields e len m) 0 = 17 := by
    unfold ipP
    rw [hbyte 9 (by omega), hproto]
  have hseg : len - ipSize < 2 ^ 16 := by omega
  have hint : (((BitVec.ofNat 16 (len - ipSize)).toNat : Nat) : Int) = (len - ipSize : Nat) := by
    rw [BitVec.toNat_ofNat, Nat.mod_eq_of_lt hseg]
  have hvalid := validTransportChecksum_inCksum (by decide) hzero le_rfl
    (show 2 * 3 + 2 ≤ len - ipSize by simp only [ipSize]; omega) hseg hp
  unfold writeUdpHeader
  dsimp only
  rw [hint]
  exact hvalid.2 (by rw [hdst])

end Headers

/-! ## A call -/

section Call

variable {ctx : CipherContext} {e : Members} {headroom encrypted : Memory} {dstAnno : BitVec 32} {p : Packet}
  {r : Outcome} {len : Nat} {m m' : Memory}

/-- The copy leaves the headers. -/
theorem encryptPayload_of_lt (h : encryptPayload ctx encrypted len m = some m') {i : Nat} (hi : i < 28) :
    m' i = m i := by
  unfold encryptPayload at h
  dsimp only at h
  split at h
  · obtain rfl := Option.some.inj h
    exact Memory.writeBytes_of_disjoint _ (.inl hi)
  · cases h

/-- Up to the size of `encrypted`, less what the cipher may add, nothing is written behind its end. -/
theorem encryptPayload_isSome (hlen : cipherLen len + 31 ≤ encryptedSize) :
    (encryptPayload ctx encrypted len m).isSome := by
  have hfirst := ctx.length_update (m.slice payloadStart (cipherLen len))
  have hlast := ctx.length_final (m.slice payloadStart (cipherLen len))
  rw [Memory.length_slice] at hfirst
  unfold encryptPayload
  dsimp only
  rw [if_pos ⟨by omega, by omega⟩]
  rfl

theorem encryptPayload_none (hlen : encryptedSize < cipherLen len) : encryptPayload ctx encrypted len m = none := by
  unfold encryptPayload
  dsimp only
  exact if_neg fun h => absurd h.2 (Nat.not_le_of_lt hlen)

/-- What a call that returns has done. -/
theorem simpleAction_some (h : simpleAction ctx e headroom encrypted dstAnno p = some r) :
    ∃ m m', encryptPayload ctx encrypted (p.length + 28) (writeIpHeader e dstAnno (p.length + 28) m) = some m' ∧
      r.packet.data = writeUdpHeader e (p.length + 28) m' ∧
      r.plaintext = List.range' 28 (p.length + 40) ∧ r.copied = List.range' 28 (p.length + 40) := by
  unfold simpleAction at h
  obtain ⟨m', hm', rfl⟩ := Option.map_eq_some_iff.1 h
  have hinl : cipherLen (p.length + 28) = p.length + 40 := by
    unfold cipherLen udpSize ipSize
    omega
  exact ⟨_, m', hm', rfl, congrArg (List.range' 28) hinl, congrArg (List.range' 28) hinl⟩

theorem simpleAction_valid (hlen : p.length ≤ 65507) (h : simpleAction ctx e headroom encrypted dstAnno p = some r) :
    ValidDatagram r.packet.data p.length := by
  obtain ⟨m, m', henc, hdata, -, -⟩ := simpleAction_some h
  have hip : ∀ i < 20, r.packet.data i = writeIpHeader e dstAnno (p.length + 28) m i := by
    intro i hi
    rw [hdata, writeUdpHeader_of_lt hi, encryptPayload_of_lt henc (by omega)]
  obtain ⟨hhl, hproto⟩ := @writeIpHeader_bytes e dstAnno (p.length + 28) m
  constructor
  · have hload : r.packet.data.load 16 2 = (writeIpHeader e dstAnno (p.length + 28) m).load 16 2 := by
      unfold Memory.load
      rw [Memory.loadLE_congr fun i _ h2 => hip i (by omega)]
    rw [hload, writeIpHeader_len, ntohs_htons, BitVec.toNat_ofNat, Nat.mod_eq_of_lt (by omega)]
  · rw [hdata, writeUdpHeader_len, ntohs_htons, BitVec.toNat_ofNat, ipSize, Nat.mod_eq_of_lt (by omega)]
    omega
  · have hwords : netWords r.packet.data 0 20 = netWords (writeIpHeader e dstAnno (p.length + 28) m) 0 20 := by
      unfold netWords
      rw [hostWords_congr fun i _ h2 => hip i (by omega)]
    unfold ValidHeaderChecksum
    rw [hwords]
    exact writeIpHeader_sum
  · rw [hdata]
    have hsum := @writeUdpHeader_sum e (p.length + 28) m' (by rw [encryptPayload_of_lt henc (by omega), hhl])
      (by rw [encryptPayload_of_lt henc (by omega), hproto]) (by omega) (by omega)
    rwa [ipSize, show p.length + 28 - 20 = p.length + 8 by omega] at hsum

theorem not_staysInside : ¬ StaysInside ctx e headroom encrypted dstAnno p := by
  rintro ⟨r, hrun, hread, -, -⟩
  obtain ⟨-, -, -, -, hlong, -⟩ := simpleAction_some hrun
  have hlen := congrArg List.length (hread.symm.trans hlong)
  rw [List.length_range', List.length_range'] at hlen
  omega

end Call

/-- A call never stays inside the packet: it reads and writes forty bytes behind it, and behind the
buffer from 4057 bytes on. What it returns is a valid datagram. -/
theorem never_staysInside (ctx : CipherContext) (e : Members) (headroom encrypted : Memory) (dstAnno : BitVec 32)
    {p : Packet} (hlen : p.length ≤ 65507) :
    ¬ StaysInside ctx e headroom encrypted dstAnno p ∧
    (∀ r, simpleAction ctx e headroom encrypted dstAnno p = some r →
      r.plaintext = List.range' 28 (p.length + 40) ∧
      r.copied = List.range' 28 (p.length + 40) ∧ ValidDatagram r.packet.data p.length) ∧
    (p.length ≤ 4025 → (simpleAction ctx e headroom encrypted dstAnno p).isSome) ∧
    (4057 ≤ p.length → simpleAction ctx e headroom encrypted dstAnno p = none) := by
  have hsize : encryptedSize = 4096 := rfl
  have hinl : cipherLen (p.length + 28) = p.length + 40 := by
    unfold cipherLen udpSize ipSize
    omega
  refine ⟨not_staysInside, fun r hrun => ?_, fun hle => ?_, fun hge => ?_⟩
  · obtain ⟨-, -, -, -, hread, hcopied⟩ := simpleAction_some hrun
    exact ⟨hread, hcopied, simpleAction_valid hlen hrun⟩
  · unfold simpleAction
    rw [Option.isSome_map]
    have hfits : cipherLen (p.length + 28) + 31 ≤ encryptedSize := by omega
    exact encryptPayload_isSome hfits
  · unfold simpleAction
    rw [Option.map_eq_none_iff]
    have hover : encryptedSize < cipherLen (p.length + 28) := by omega
    exact encryptPayload_none hover

/-! ## A packet of four bytes -/

/-- The packet `ping`, in front of zeros. -/
def pingPacket : Packet where
  data := fun i => [0x70, 0x69, 0x6e, 0x67][i]?.getD 0
  length := 4
  networkHeader := none
  transportHeader := none

/-- The plaintext of the call for `ping`. -/
def pingPlaintext : List Byte := [0x70, 0x69, 0x6e, 0x67] ++ List.replicate 40 0

/-- The cipher under the zero key and vector, on the plaintext of `ping`. -/
def pingContext : CipherContext where
  update := fun plaintext => if plaintext = pingPlaintext then [
    0x87, 0x0c, 0xce, 0xa2, 0x5b, 0xd7, 0x54, 0x92, 0x18, 0xa0, 0x94, 0x23, 0x8e, 0xde, 0xc4, 0xf1,
    0x4d, 0xa4, 0x7f, 0xbf, 0x84, 0xd2, 0x0f, 0xc7, 0x50, 0x64, 0x10, 0xc8, 0x26, 0x8f, 0xdf, 0x55] else []
  final := fun plaintext => if plaintext = pingPlaintext then [
    0x64, 0x61, 0x52, 0x70, 0x48, 0x53, 0xd7, 0xb5, 0xa8, 0xf1, 0x69, 0x04, 0xa9, 0xe1, 0x64, 0xe9] else []
  length_update := by
    intro plaintext
    split
    · rename_i h
      rw [h]
      decide
    · exact Nat.zero_le _
  length_final := by
    intro plaintext
    split
    · exact le_rfl
    · exact Nat.zero_le _

/-- The members after the constructor, in zeroed memory. -/
def zeroMembers : Members := ⟨0, 0, 0, 0, false, 0⟩

theorem never_staysInside_ping : ∃ r,
    simpleAction pingContext zeroMembers (fun _ => 0) (fun _ => 0) 0 pingPacket = some r ∧
      r.plaintext = List.range' 28 44 ∧ ValidDatagram r.packet.data 4 := by
  have hlen : pingPacket.length ≤ 65507 := by decide
  obtain ⟨-, hvalid, hsome, -⟩ := never_staysInside pingContext zeroMembers (fun _ => 0) (fun _ => 0) 0 hlen
  obtain ⟨r, hrun⟩ := Option.isSome_iff_exists.1 (hsome (by decide))
  obtain ⟨hread, -, hdatagram⟩ := hvalid r hrun
  exact ⟨r, hrun, hread, hdatagram⟩

/-- The forty bytes behind `ping` are encrypted with it. -/
theorem ping_leaves : ¬ StaysInside pingContext zeroMembers (fun _ => 0) (fun _ => 0) 0 pingPacket := not_staysInside

end AESForward

end Embark
