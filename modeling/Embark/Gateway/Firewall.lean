/-
The gateway elements: `MBArkFirewall` encrypts the addresses and ports of outgoing packets by its
search trees and records the flow in an `MBarkTable`; `MBArkFirewallRev` looks the flow of a
returning packet up and writes the addresses and ports it finds. `encrypt_v4` and `encrypt_v6`
differ in the header layout, the byte-order conversions and the flow type, so both are one
definition over an `AddressFamily`. A failing assertion is `none`.
-/
import Embark.Net.Packet

namespace Embark

/-! ## Address families -/

/-- What `encrypt_v4` and `encrypt_v6` do not share: the offsets of the addresses and of the
header after `ip + 1`, the header length they announce, the conversions between host and network
order, and the flow identifier. -/
structure AddressFamily (w : Nat) where
  src : Nat
  dst : Nat
  udp : Nat
  headerLength : Memory → Nat
  hton : BitVec w → BitVec w
  ntoh : BitVec w → BitVec w
  flowId : Packet → Bool → Option (FlowID w)
  dvd : 8 ∣ w
  src_dst : src + w / 8 ≤ dst
  dst_udp : dst + w / 8 ≤ udp
  ntoh_hton : ∀ x, ntoh (hton x) = x
  hton_ntoh : ∀ x, hton (ntoh x) = x

def ipv4 : AddressFamily 32 where
  src := 12
  dst := 16
  udp := 20
  headerLength m := ipHl m 0 * 4
  hton := htonl
  ntoh := ntohl
  flowId := ipFlowId
  dvd := by decide
  src_dst := by decide
  dst_udp := by decide
  ntoh_hton := ntohl_htonl
  hton_ntoh := ntohl_htonl

def ipv6 : AddressFamily 128 where
  src := 8
  dst := 24
  udp := 40
  headerLength _ := 40
  hton := hton128
  ntoh := ntoh128
  flowId := ip6FlowId
  dvd := by decide
  src_dst := by decide
  dst_udp := by decide
  ntoh_hton := ntoh128_hton128
  hton_ntoh := ntoh128_hton128

namespace AddressFamily

variable {w : Nat} (f : AddressFamily w)

/-- The addresses behind the header at `data()` and the ports at `ip + 1`. -/
def flow (m : Memory) : FlowID w := FlowID.read w m f.src f.dst f.udp

/-- The four `memcpy`s of the encrypted fields. -/
def writeFields (m : Memory) (c : FlowID w) : Memory :=
  (((m.store f.src c.saddr).store f.dst c.daddr).store f.udp c.sport).store (f.udp + 2) c.dport

end AddressFamily

/-! ## The flow table -/

/-- `HashTable` from flows to flows. -/
abbrev FlowTable (w : Nat) := FlowID w → Option (FlowID w)

namespace FlowTable

variable {w : Nat}

/-- `lookup`: the stored flow, or the zero flow of the default constructor. -/
def lookup (table : FlowTable w) (after : FlowID w) : FlowID w := (table after).getD FlowID.zero

/-- `insert`. -/
def insert (table : FlowTable w) (before after : FlowID w) : FlowTable w :=
  fun k => if k = before then some after else table k

end FlowTable

/-- `MBarkTable`: `_table` and `_table_v4`. -/
structure MBarkTable where
  table : FlowTable 128
  tableV4 : FlowTable 32

/-- `MBarkTable()`. -/
def MBarkTable.empty : MBarkTable := ⟨fun _ => none, fun _ => none⟩

/-! ## Encrypting -/

/-- The trees one address family uses. -/
structure FlowTrees (w : Nat) where
  srcAddr : OPETree (BitVec w)
  dstAddr : OPETree (BitVec w)
  srcPort : OPETree (BitVec 16)
  dstPort : OPETree (BitVec 16)

section Encrypt

variable {w : Nat} (f : AddressFamily w)

/-- The encrypted addresses and ports of the packet in `m`, narrowed to the width of their fields
and in network order, and the trees with their engines advanced. -/
def encryptFields (t : FlowTrees w) (m : Memory) : FlowID w × FlowTrees w :=
  let plain := f.flow m
  let srcAddr := t.srcAddr.generateCiphertext (f.ntoh plain.saddr)
  let dstAddr := t.dstAddr.generateCiphertext (f.ntoh plain.daddr)
  let srcPort := t.srcPort.generateCiphertext (ntohs plain.sport)
  let dstPort := t.dstPort.generateCiphertext (ntohs plain.dport)
  (⟨f.hton (srcAddr.1.setWidth w), htons (srcPort.1.setWidth 16), f.hton (dstAddr.1.setWidth w),
    htons (dstPort.1.setWidth 16)⟩, ⟨srcAddr.2, dstAddr.2, srcPort.2, dstPort.2⟩)

/-- `encrypt_v4` and `encrypt_v6`. With `stateful` false the encrypted fields also go through a
stream cipher into a local buffer that nothing reads. -/
def encrypt (enable stateful : Bool) (t : FlowTrees w) (table : FlowTable w) (p : Packet) :
    Option (Packet × FlowTrees w × FlowTable w) := do
  let q := p.setNetworkHeader (f.headerLength p.data)
  let before ← f.flowId q false
  let cipher := encryptFields f t q.data
  let q := if enable then { q with data := f.writeFields q.data cipher.1 } else q
  if stateful then
    let after ← f.flowId q false
    return (q, cipher.2, table.insert before after)
  else return (q, cipher.2, table)

/-- `simple_action` of `MBArkFirewallRev`. -/
def restore (table : FlowTable w) (p : Packet) : Option Packet := do
  let q := p.setNetworkHeader (f.headerLength p.data)
  let after ← f.flowId q true
  let before := table.lookup after
  return { q with data := f.writeFields q.data before.reverse }

end Encrypt

/-! ## The elements -/

/-- `MBArkFirewall`; the table it points to is passed to `push`. -/
structure MBArkFirewall where
  srcAddrTree : OPETree (BitVec 128)
  dstAddrTree : OPETree (BitVec 128)
  srcAddrTreeV4 : OPETree (BitVec 32)
  dstAddrTreeV4 : OPETree (BitVec 32)
  srcPortTree : OPETree (BitVec 16)
  dstPortTree : OPETree (BitVec 16)
  protoTree : OPETree (BitVec 8)
  v4 : Bool
  enable : Bool
  stateful : Bool

namespace MBArkFirewall

def treesV4 (fw : MBArkFirewall) : FlowTrees 32 :=
  ⟨fw.srcAddrTreeV4, fw.dstAddrTreeV4, fw.srcPortTree, fw.dstPortTree⟩

def treesV6 (fw : MBArkFirewall) : FlowTrees 128 :=
  ⟨fw.srcAddrTree, fw.dstAddrTree, fw.srcPortTree, fw.dstPortTree⟩

def setTreesV4 (fw : MBArkFirewall) (t : FlowTrees 32) : MBArkFirewall :=
  { fw with
    srcAddrTreeV4 := t.srcAddr
    dstAddrTreeV4 := t.dstAddr
    srcPortTree := t.srcPort
    dstPortTree := t.dstPort }

def setTreesV6 (fw : MBArkFirewall) (t : FlowTrees 128) : MBArkFirewall :=
  { fw with
    srcAddrTree := t.srcAddr
    dstAddrTree := t.dstAddr
    srcPortTree := t.srcPort
    dstPortTree := t.dstPort }

/-- `encrypt_v4`: the packet pushed to output 0, the element and the table. -/
def encryptV4 (fw : MBArkFirewall) (mbarkt : MBarkTable) (p : Packet) :
    Option (Packet × MBArkFirewall × MBarkTable) := do
  let (q, t, tableV4) ← encrypt ipv4 fw.enable fw.stateful fw.treesV4 mbarkt.tableV4 p
  return (q, fw.setTreesV4 t, { mbarkt with tableV4 })

/-- `encrypt_v6`. -/
def encryptV6 (fw : MBArkFirewall) (mbarkt : MBarkTable) (p : Packet) :
    Option (Packet × MBArkFirewall × MBarkTable) := do
  let (q, t, table) ← encrypt ipv6 fw.enable fw.stateful fw.treesV6 mbarkt.table p
  return (q, fw.setTreesV6 t, { mbarkt with table })

/-- `push`. -/
def push (fw : MBArkFirewall) (mbarkt : MBarkTable) (p : Packet) : Option (Packet × MBArkFirewall × MBarkTable) :=
  if fw.v4 then fw.encryptV4 mbarkt p else fw.encryptV6 mbarkt p

end MBArkFirewall

/-- `MBArkFirewallRev::simple_action`; `v4` is the element's flag. -/
def MBArkFirewallRev.simpleAction (v4 : Bool) (mbarkt : MBarkTable) (p : Packet) : Option Packet :=
  if v4 then restore ipv4 mbarkt.tableV4 p else restore ipv6 mbarkt.table p

/-! ## Reading back what was written -/

namespace AddressFamily

variable {w : Nat} (f : AddressFamily w)

@[simp] theorem flow_writeFields (m : Memory) (c : FlowID w) : f.flow (f.writeFields m c) = c := by
  have h1 := f.src_dst
  have h2 := f.dst_udp
  unfold flow writeFields FlowID.read
  have hs : (((((m.store f.src c.saddr).store f.dst c.daddr).store f.udp c.sport).store (f.udp + 2) c.dport).load
      w f.src) = c.saddr := by
    rw [Memory.load_store_of_disjoint _ _ (by omega), Memory.load_store_of_disjoint _ _ (by omega),
      Memory.load_store_of_disjoint _ _ (by omega), Memory.load_store _ f.dvd]
  have hd : (((((m.store f.src c.saddr).store f.dst c.daddr).store f.udp c.sport).store (f.udp + 2) c.dport).load
      w f.dst) = c.daddr := by
    rw [Memory.load_store_of_disjoint _ _ (by omega), Memory.load_store_of_disjoint _ _ (by omega),
      Memory.load_store _ f.dvd]
  rw [hs, hd, Memory.load_store_of_disjoint _ _ (.inl (by omega)), Memory.load_store _ (by decide),
    Memory.load_store _ (by decide)]

/-- The fields before the source address are not touched. -/
theorem writeFields_of_lt (m : Memory) (c : FlowID w) {i : Nat} (h : i < f.src) : (f.writeFields m c) i = m i := by
  have h1 := f.src_dst
  have h2 := f.dst_udp
  unfold writeFields
  rw [Memory.store_of_disjoint _ _ (by omega), Memory.store_of_disjoint _ _ (by omega),
    Memory.store_of_disjoint _ _ (by omega), Memory.store_of_disjoint _ _ (by omega)]

/-- The packets a family is made for: their flow is read from the fixed offsets, which no byte
from the source address on decides. -/
structure Plain (p : Packet) : Prop where
  flowId : ∀ m reverse, (∀ i < f.src, m i = p.data i) →
    f.flowId { p.setNetworkHeader (f.headerLength p.data) with data := m } reverse =
      some (if reverse then (f.flow m).reverse else f.flow m)

end AddressFamily

theorem PlainV4.plain {p : Packet} (h : PlainV4 p) : ipv4.Plain p where
  flowId m reverse hm := by
    have hfrag : ipFirstFrag m 0 := by
      unfold ipFirstFrag ipOff Memory.load
      rw [Memory.loadLE_congr fun i _ h2 => hm i (by simp only [ipv4] at *; omega)]
      exact h.firstFrag
    simp only [ipv4, ipFlowId, Packet.setNetworkHeader, AddressFamily.flow, h.noOptions, if_pos hfrag, Nat.zero_add]

theorem PlainV6.plain {p : Packet} (h : PlainV6 p) : ipv6.Plain p where
  flowId m reverse hm := by
    have hv : ipV m 0 = 6 := by
      unfold ipV
      rw [hm 0 (by decide)]
      exact h.version
    simp only [ipv6, ip6FlowId, Packet.setNetworkHeader, AddressFamily.flow, if_pos hv, Nat.zero_add]

section Spec

variable {w : Nat} {f : AddressFamily w} {p : Packet}

/-- What `encrypt` does to a packet of its family. -/
theorem encrypt_plain (h : f.Plain p) (enable stateful : Bool) (t : FlowTrees w) (table : FlowTable w) :
    ∃ q, encrypt f enable stateful t table p = some (q, (encryptFields f t p.data).2,
        if stateful then table.insert (f.flow p.data) (f.flow q.data) else table) ∧
      f.flow q.data = if enable then (encryptFields f t p.data).1 else f.flow p.data := by
  let q := p.setNetworkHeader (f.headerLength p.data)
  let c := (encryptFields f t p.data).1
  have hbefore : f.flowId q false = some (f.flow p.data) := h.flowId p.data false fun _ _ => rfl
  have hafter : f.flowId { q with data := f.writeFields p.data c } false = some c := by
    rw [h.flowId _ false fun i hi => f.writeFields_of_lt _ _ hi]
    simp
  cases enable with
  | true =>
    refine ⟨{ q with data := f.writeFields p.data c }, ?_, by simp [c]⟩
    cases stateful with
    | true =>
      show (f.flowId q false).bind _ = _
      rw [hbefore]
      show (f.flowId { q with data := f.writeFields p.data c } false).bind _ = _
      rw [hafter]
      simp only [AddressFamily.flow_writeFields]
      rfl
    | false =>
      show (f.flowId q false).bind _ = _
      rw [hbefore]
      rfl
  | false =>
    refine ⟨q, ?_, rfl⟩
    cases stateful with
    | true =>
      show (f.flowId q false).bind _ = _
      rw [hbefore]
      show (f.flowId q false).bind _ = _
      rw [hbefore]
      rfl
    | false =>
      show (f.flowId q false).bind _ = _
      rw [hbefore]
      rfl

/-- What `restore` does to a packet of its family. -/
theorem restore_plain (h : f.Plain p) (table : FlowTable w) :
    ∃ q, restore f table p = some q ∧ f.flow q.data = (table.lookup (f.flow p.data).reverse).reverse := by
  have hafter : f.flowId (p.setNetworkHeader (f.headerLength p.data)) true = some (f.flow p.data).reverse :=
    h.flowId p.data true fun _ _ => rfl
  unfold restore
  simp only [hafter]
  exact ⟨_, rfl, f.flow_writeFields _ _⟩

end Spec

end Embark
