/-
Packets and flow identifiers: the bytes of a packet with its header annotations, and the flow a
packet belongs to, `IPFlowID` and `IP6FlowID`, read from its headers. A failing assertion is `none`.
-/
import Embark.Lib.Bytes
import Embark.Net.ByteOrder

namespace Embark

/-- A packet: the buffer from `data()` on, of which `length` bytes are the packet, and the header
annotations as offsets from `data()`. -/
structure Packet where
  data : Memory
  length : Nat
  networkHeader : Option Nat
  transportHeader : Option Nat

/-- `set_network_header` of the header at `data()`, of `len` bytes. -/
def Packet.setNetworkHeader (p : Packet) (len : Nat) : Packet :=
  { p with networkHeader := some 0, transportHeader := some len }

/-! ## Header fields, by their offsets in `click_ip`, `click_ip6` and `click_udp` -/

def ipHl (m : Memory) (iph : Nat) : Nat := ((m iph) &&& 0x0f).toNat

def ipV (m : Memory) (iph : Nat) : Nat := ((m iph) >>> 4).toNat

def ipOff (m : Memory) (iph : Nat) : BitVec 16 := m.load 16 (iph + 6)

def ipP (m : Memory) (iph : Nat) : Byte := m (iph + 9)

def ip6Nxt (m : Memory) (iph : Nat) : Byte := m (iph + 6)

/-- `IP_FIRSTFRAG`. -/
def ipFirstFrag (m : Memory) (iph : Nat) : Bool := ipOff m iph &&& htons 0x1fff == 0

/-! ## Flows -/

/-- The addresses and ports of a flow, in network byte order. -/
structure FlowID (w : Nat) where
  saddr : BitVec w
  sport : BitVec 16
  daddr : BitVec w
  dport : BitVec 16
deriving DecidableEq, Repr

abbrev IPFlowID := FlowID 32

abbrev IP6FlowID := FlowID 128

namespace FlowID

variable {w : Nat}

/-- The default constructor: zero addresses and ports. -/
def zero : FlowID w := ⟨0, 0, 0, 0⟩

/-- `reverse`. -/
def reverse (a : FlowID w) : FlowID w := ⟨a.daddr, a.dport, a.saddr, a.sport⟩

@[simp] theorem reverse_reverse (a : FlowID w) : a.reverse.reverse = a := rfl

theorem reverse_inj {a b : FlowID w} : a.reverse = b.reverse ↔ a = b :=
  ⟨fun h => by rw [← reverse_reverse a, h, reverse_reverse], congrArg _⟩

/-- The flow in the headers: addresses of `w` bits at `src` and `dst`, ports at `udph`. -/
def read (w : Nat) (m : Memory) (src dst udph : Nat) : FlowID w :=
  ⟨m.load w src, m.load 16 udph, m.load w dst, m.load 16 (udph + 2)⟩

end FlowID

/-- The IPv4-mapped address of an `in_addr` (`IP6Address::operator=`). -/
def mappedAddress (a : BitVec 32) : BitVec 128 := a.setWidth 128 <<< 96 ||| 0xffff#128 <<< 80

/-- `IPFlowID(p, reverse)`. -/
def ipFlowId (p : Packet) (reverse : Bool) : Option IPFlowID :=
  match p.networkHeader, p.transportHeader with
  | some iph, some udph =>
    if ipFirstFrag p.data iph then
      let flow := FlowID.read 32 p.data (iph + 12) (iph + 16) udph
      some (if reverse then flow.reverse else flow)
    else none
  | _, _ => none

/-- `IP6FlowID(p, reverse)`: an IPv4 header gives a flow between IPv4-mapped addresses. -/
def ip6FlowId (p : Packet) (reverse : Bool) : Option IP6FlowID :=
  match p.networkHeader, p.transportHeader with
  | some iph, some udph =>
    if ipV p.data iph = 6 then
      let flow := FlowID.read 128 p.data (iph + 8) (iph + 24) udph
      some (if reverse then flow.reverse else flow)
    else if ipFirstFrag p.data iph then
      let v4 := FlowID.read 32 p.data (iph + 12) (iph + 16) udph
      let flow := ⟨mappedAddress v4.saddr, v4.sport, mappedAddress v4.daddr, v4.dport⟩
      some (if reverse then flow.reverse else flow)
    else none
  | _, _ => none

/-- A first-fragment IPv4 TCP or UDP packet without IP options. -/
structure PlainV4 (p : Packet) : Prop where
  version : ipV p.data 0 = 4
  noOptions : ipHl p.data 0 = 5
  protocol : ipP p.data 0 = 6 ∨ ipP p.data 0 = 17
  firstFrag : ipFirstFrag p.data 0
  ports : 24 ≤ p.length

/-- An IPv6 TCP or UDP packet without extension headers. -/
structure PlainV6 (p : Packet) : Prop where
  version : ipV p.data 0 = 6
  protocol : ip6Nxt p.data 0 = 6 ∨ ip6Nxt p.data 0 = 17
  ports : 44 ≤ p.length

end Embark
