/-
The checksum of a rewritten packet: for each of the three kinds of packets `push` rewrites, when
the checksum it stores is valid.
-/
import Embark.Proxy.Codec
import Embark.Proxy.Push

namespace Embark

open OnesComplement

/-! ## Checksums stored in a segment -/

section Stored

variable {m : Memory} {tcp len : Nat}

/-- The checksum of the IPv4 functions in a TCP header is valid when the destination it was computed
for sums to that of the header. -/
theorem valid_inCksum (hzero : m = m.store (tcp + 16) (0 : BitVec 16)) (htcp : 20 ≤ tcp) (h18 : 18 ≤ len)
    (hlen : len < 2 ^ 16) (hproto : ipP m 0 = 6) :
    ValidTcpChecksum (m.store (tcp + 16) (inCksumPseudohdr (inCksum m tcp len) m 0 len)) 12 16 4 tcp len ↔
      hostSum m (pseudoDst m 0) 4 ≡ hostSum m 16 4 [MOD 2 ^ 16 - 1] :=
  @validTransportChecksum_inCksum m tcp len 8 6 (by decide) hzero htcp h18 hlen hproto

/-- The checksum of the IPv6 function is valid when the length, the protocol and the words it
sums, less the carries its accumulator loses, agree with those of the segment. -/
theorem valid_in6FastCksum {proto : Byte} {plen : BitVec 16} (hzero : m = m.store (tcp + 16) (0 : BitVec 16))
    (htcp : 40 ≤ tcp) (h18 : 18 ≤ len) (hlen : len < 2 ^ 16) :
    ValidTcpChecksum (m.store (tcp + 16) (htons (in6FastCksum m 8 24 plen proto 0 tcp plen))) 8 24 16 tcp len ↔
      6 + len + netSum m tcp len + in6Total m 8 24 proto tcp (ntohs plen).toNat / 2 ^ 32 ≡
        (ntohs plen).toNat + proto.toNat + netSum m tcp (ntohs plen).toNat [MOD 2 ^ 16 - 1] := by
  have hc := in6FastCksum_toNat m 8 24 plen proto tcp
  generalize in6FastCksum m 8 24 plen proto 0 tcp plen = c at hc ⊢
  have haddr := addressWords_modEq m 8 24
  generalize hT : in6Total m 8 24 proto tcp (ntohs plen).toNat = T at hc ⊢
  have hdef : T = fold 32 (addressWords m 8 24) + (ntohs plen).toNat + proto.toNat +
      netSum m tcp (ntohs plen).toNat := hT.symm
  have hfold := fold_modEq 16 (T % 2 ^ 32)
  have hfoldlt := fold_lt two_le_two_pow16 (T % 2 ^ 32)
  have hsrc : netSum (m.store (tcp + 16) (htons c)) 8 16 = netSum m 8 16 :=
    wordSum_store_of_disjoint _ m _ (.inl (by omega))
  have hdst : netSum (m.store (tcp + 16) (htons c)) 24 16 = netSum m 24 16 :=
    wordSum_store_of_disjoint _ m _ (.inl (by omega))
  have hsum : netSum (m.store (tcp + 16) (htons c)) tcp len = netSum m tcp len + c.toNat := by
    have h : netSum (m.store (tcp + 16) (htons c)) tcp len = netSum m tcp len + (ntohs (htons c)).toNat :=
      wordSum_checksum (k := 8) rfl h18 (htons c) hzero
    rwa [ntohs_htons] at h
  rw [validTcpChecksum_iff hlen, hsrc, hdst, hsum]
  unfold Nat.ModEq at *
  constructor <;> intro h <;> omega

end Stored

namespace MBArkProxy

/-! ## The three kinds of packets -/

/-- The packets `push` rewrites: IPv4, for which `V4` is set, IPv6, and IPv6 with an `ext_hdr`. -/
inductive Kind
  | ipv4
  | ipv6
  | options
deriving DecidableEq, Repr

namespace Kind

/-- The value of `V4` for packets of the kind. -/
def v4 : Kind → Bool
  | ipv4 => true
  | ipv6 | options => false

/-- A packet of the kind with consistent lengths and a TCP segment of `len` bytes at `tcp`. -/
inductive Segment (p : Packet) : Kind → Nat → Nat → Prop
  | ipv4 {len : Nat} : ipV p.data 0 = 4 → ipP p.data 0 = 6 → 5 ≤ ipHl p.data 0 →
      (ntohs (p.data.load 16 2)).toNat = p.length → ipHl p.data 0 * 4 + len = p.length → 20 ≤ len →
      p.transportHeader = some (ipHl p.data 0 * 4) → Segment p ipv4 (ipHl p.data 0 * 4) len
  | ipv6 {len : Nat} : ipV p.data 0 = 6 → ip6Nxt p.data 0 = 6 → (ntohs (p.data.load 16 4)).toNat = len →
      40 + len = p.length → 20 ≤ len → Segment p ipv6 40 len
  | options {len : Nat} : ipV p.data 0 = 6 → ip6Nxt p.data 0 = 60 → (ntohs (p.data.load 16 4)).toNat = 56 + len →
      96 + len = p.length → 20 ≤ len → Segment p options 96 len

/-- The checksum of the segment is valid with the addresses of the header. -/
def Valid : Kind → Memory → Nat → Nat → Prop
  | ipv4, m, tcp, len => ValidTcpChecksum m 12 16 4 tcp len
  | ipv6, m, tcp, len => ValidTcpChecksum m 8 24 16 tcp len
  | options, m, tcp, len => ValidTcpChecksum m 8 24 16 tcp len

/-- When the checksum comes out valid, by the packet as rewritten with checksum zero: for IPv4,
the destination that is summed, which a source route takes from its last address, agrees with
`ip_dst`; for IPv6, the sum of the address words, the length, the protocol and the words of the
segment fits 32 bits; behind an `ext_hdr`, where the protocol of the extension header, its length
and 56 bytes behind the segment are summed too, these make up for each other. -/
def Sound : Kind → Memory → Nat → Nat → Prop
  | ipv4, m, _, _ => hostSum m (pseudoDst m 0) 4 ≡ hostSum m 16 4 [MOD 2 ^ 16 - 1]
  | ipv6, m, tcp, len => in6Total m 8 24 6 tcp len < 2 ^ 32
  | options, m, tcp, len => netSum m tcp len + in6Total m 8 24 60 tcp (56 + len) / 2 ^ 32 ≡
      110 + netSum m tcp (56 + len) [MOD 2 ^ 16 - 1]

end Kind

section Update

variable {enc : List Byte → List Byte} {p : Packet} {m m' : Memory} {tcp len : Nat}

/-- At most one carry is lost. -/
theorem in6Total_lt (m : Memory) (saddr daddr : Nat) (proto : Byte) (addr : Nat) (hlen : len < 2 ^ 16) :
    in6Total m saddr daddr proto addr len < 2 * 2 ^ 32 := by
  have haddr := fold_lt two_le_two_pow32 (addressWords m saddr daddr)
  have hproto := proto.isLt
  have hwords := wordSum_le ntohs m addr len
  unfold in6Total netSum
  omega

theorem push_of_rewrite {v4 : Bool} (hrw : rewrite enc p.data = some (some (tcp, m))) :
    push v4 enc p = updateChecksum v4 p tcp m := by
  unfold push
  rw [hrw]

/-- The header is what it was before the rewriting. -/
theorem load_zeroed {w a : Nat} (hrw : rewrite enc p.data = some (some (tcp, m))) (h : a + w / 8 ≤ tcp) :
    (m.store (thSum tcp) (0 : BitVec 16)).load w a = p.data.load w a := by
  unfold Memory.load
  rw [Memory.loadLE_congr fun i _ h2 => rewrite_zeroed hrw (by omega)]

theorem valid_of_v4 (hrw : rewrite enc p.data = some (some (tcp, m))) (hpush : push true enc p = some m')
    (htcp : 20 ≤ tcp) (h20 : 20 ≤ len) (hlen : len < 2 ^ 16) (hproto : ipP p.data 0 = 6)
    (hth : p.transportHeader = some tcp) (hend : tcp + len = p.length) :
    ValidTcpChecksum m' 12 16 4 tcp len ↔
      hostSum (m.store (thSum tcp) (0 : BitVec 16)) (pseudoDst (m.store (thSum tcp) (0 : BitVec 16)) 0) 4 ≡
        hostSum (m.store (thSum tcp) (0 : BitVec 16)) 16 4 [MOD 2 ^ 16 - 1] := by
  have hp : ipP (m.store (thSum tcp) (0 : BitVec 16)) 0 = 6 := by
    rw [← hproto]
    exact rewrite_zeroed hrw (by omega)
  have hzero := (Memory.store_store m (thSum tcp) (0 : BitVec 16) 0).symm
  have htlen : (p.length : Int) - tcp = len := by omega
  rw [push_of_rewrite hrw, updateChecksum] at hpush
  simp only [if_pos, hth, Option.map_some, Option.some.injEq, htlen] at hpush
  subst hpush
  exact valid_inCksum hzero htcp (by omega) hlen hp

theorem valid_of_v6 (hrw : rewrite enc p.data = some (some (tcp, m))) (hpush : push false enc p = some m')
    (htcp : 40 ≤ tcp) (h20 : 20 ≤ len) (hlen : len < 2 ^ 16) {plen : Nat}
    (hplen : (ntohs (p.data.load 16 4)).toNat = plen) :
    ValidTcpChecksum m' 8 24 16 tcp len ↔
      6 + len + netSum (m.store (thSum tcp) (0 : BitVec 16)) tcp len +
          in6Total (m.store (thSum tcp) (0 : BitVec 16)) 8 24 (ip6Nxt p.data 0) tcp plen / 2 ^ 32 ≡
        plen + (ip6Nxt p.data 0).toNat + netSum (m.store (thSum tcp) (0 : BitVec 16)) tcp plen [MOD 2 ^ 16 - 1] := by
  have hnxt : ip6Nxt (m.store (thSum tcp) (0 : BitVec 16)) 0 = ip6Nxt p.data 0 := rewrite_zeroed hrw (by omega)
  have hload : (m.store (thSum tcp) (0 : BitVec 16)).load 16 4 = p.data.load 16 4 := load_zeroed hrw (by omega)
  have hzero := (Memory.store_store m (thSum tcp) (0 : BitVec 16) 0).symm
  rw [push_of_rewrite hrw, updateChecksum] at hpush
  simp only [Bool.false_eq_true, if_false, Option.some.injEq, hnxt, hload,
    Memory.load_store m (show 8 ∣ 16 by decide)] at hpush
  subst hpush hplen
  exact valid_in6FastCksum hzero htcp (by omega) hlen

/-- A rewritten packet of any of the three kinds carries a valid checksum exactly when the sum of
its kind is sound. -/
theorem checksum_valid_iff {k : Kind} (hseg : k.Segment p tcp len) (hrw : rewrite enc p.data = some (some (tcp, m)))
    (hpush : push k.v4 enc p = some m') :
    k.Valid m' tcp len ↔ k.Sound (m.store (thSum tcp) (0 : BitVec 16)) tcp len := by
  cases hseg with
  | ipv4 hv hproto hhl hip hend h20 hth =>
    have hip := hip ▸ (ntohs (p.data.load 16 2)).isLt
    exact valid_of_v4 hrw hpush (by omega) h20 (by omega) hproto hth hend
  | ipv6 hv hnxt hplen hend h20 =>
    have hlt := hplen ▸ (ntohs (p.data.load 16 4)).isLt
    have hiff := valid_of_v6 hrw hpush le_rfl h20 hlt hplen
    rw [hnxt] at hiff
    have hT := in6Total_lt (m.store (thSum 40) (0 : BitVec 16)) 8 24 6 40 hlt
    have h6 : (6 : Byte).toNat = 6 := rfl
    rw [h6] at hiff
    refine hiff.trans ?_
    unfold Kind.Sound Nat.ModEq
    constructor <;> intro h <;> omega
  | options hv hnxt hplen hend h20 =>
    have hlt := hplen ▸ (ntohs (p.data.load 16 4)).isLt
    have hiff := valid_of_v6 hrw hpush (by omega) h20 (by omega) hplen
    rw [hnxt] at hiff
    have h60 : (60 : Byte).toNat = 60 := rfl
    rw [h60] at hiff
    refine hiff.trans ?_
    unfold Kind.Sound Nat.ModEq
    constructor <;> intro h <;> omega

end Update

/-! ## Two packets -/

open Proxy (cfbBlock request)

/-- A TCP packet to port 80 from 2001:db8::1 to the address 2001:db8::`lo`, with the request as
its payload. -/
def ip6Request (lo : List Byte) : Packet where
  data := fun i => (
    [0x60, 0, 0, 0, 0, 43, 6, 64, 0x20, 0x01, 0x0d, 0xb8, 0, 0, 0, 0, 0, 0, 0, 0, 0, 0, 0, 1,
      0x20, 0x01, 0x0d, 0xb8, 0, 0, 0, 0, 0, 0, 0, 0] ++ lo ++
    [0xc0, 0, 0, 80, 0, 0, 0, 1, 0, 0, 0, 1, 0x50, 0x18, 0x20, 0, 0, 0, 0, 0] ++ request)[i]?.getD 0
  length := 83
  networkHeader := some 0
  transportHeader := some 40

theorem ip6Request_segment : Kind.ipv6.Segment (ip6Request [0, 0, 0, 2]) 40 43 :=
  .ipv6 (by decide) (by decide) (by decide) rfl (by decide)

theorem checksum_valid_iff_plain : ∃ m m',
    rewrite cfbBlock (ip6Request [0, 0, 0, 2]).data = some (some (40, m)) ∧
    push Kind.ipv6.v4 cfbBlock (ip6Request [0, 0, 0, 2]) = some m' ∧ Kind.ipv6.Valid m' 40 43 := by
  refine ⟨_, _, rfl, rfl, (@checksum_valid_iff cfbBlock _ _ _ _ _ .ipv6 ip6Request_segment rfl rfl).2 ?_⟩
  unfold Kind.Sound
  decide +kernel

/-- The words of the addresses 2001:db8::1 and 2001:db8::bffd:e48e sum to `2^32 - 1`: adding the
length loses a carry. -/
theorem carry_lost : Kind.ipv6.Segment (ip6Request [0xbf, 0xfd, 0xe4, 0x8e]) 40 43 ∧
    ∃ m', push Kind.ipv6.v4 cfbBlock (ip6Request [0xbf, 0xfd, 0xe4, 0x8e]) = some m' ∧
    ¬Kind.ipv6.Valid m' 40 43 := by
  refine ⟨.ipv6 (by decide) (by decide) (by decide) rfl (by decide), _, rfl, ?_⟩
  unfold Kind.Valid
  decide +kernel

end MBArkProxy

end Embark
